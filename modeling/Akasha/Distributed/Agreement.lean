import Akasha.Distributed.Refinement
import Akasha.Distributed.ReplicaTrace

/-!
# Agreement on indexes

The coordinator publishes an index before it sends anything for it, and records a request under
one index before it commits it. The invariant `Inv` says what follows: the owner of an index
determines what the journals hold there, the request table determines where commit markers may
stand, and no replica is ahead of the published placement. It holds in every state of a run in
which retries route to the shard their request was recorded for.
-/

namespace Akasha.Distributed

open Lib Lib.Exec Relation ClusterMetadata

variable [FloatRepr]

/-! ## The invariant -/

/-- The records the journals of a shard may hold: entries of the owner of their index, markers
where the request table has a record, and snapshots within the log. -/
def AllowedRecord (metadata : ClusterMetadata) (history : History) (shardId : Nat) :
    JournalRecord → Prop
  | .prepare entry => entry.mutation ∈ history.written ∧
      entry.mutationChecksum = checksumOf entry.mutation ∧
      entry.index ≤ (metadata.shards shardId).lastLogIndex ∧
      ∃ requestId : RequestId, ∃ mutation : Json,
        history.owners shardId entry.index = some (requestId, mutation) ∧
        entry.requestId = requestId ∧ entry.mutationChecksum = checksumOf mutation
  | .commit index => ∃ requestId record, metadata.requestTable requestId = some record ∧
      record.shardId = shardId ∧ record.index = index
  | .snapshot index => index ≤ (metadata.shards shardId).lastLogIndex

/-- The epoch a node may have seen: only a node about to become a replica may have seen the
next one. -/
def ShardPlacement.epochOf (placement : ShardPlacement) (name : String) : Nat :=
  if name ∈ placement.replicas then placement.placementEpoch else placement.placementEpoch + 1

/-- No replica is ahead of the placement. -/
structure Behind (placement : ShardPlacement) (name : String) (state : ReplicaState) : Prop where
  term_le : state.term ≤ placement.term
  epoch_le : state.placementEpoch ≤ placement.epochOf name
  applied_le : state.appliedIndex ≤ placement.lastLogIndex

/-- What a node may hold of a shard. -/
def traceOf (metadata : ClusterMetadata) (history : History) (name : String) (shardId : Nat) :
    Trace where
  shardId := shardId
  dimension := metadata.dimension
  allowed := AllowedRecord metadata history shardId
  states := Behind (metadata.shards shardId) name
  advances _ _ hstate hallowed := ⟨hstate.term_le, hstate.epoch_le, hallowed.2.2.1⟩

/-- What the metadata and the history say of each other. -/
structure Ledger (metadata : ClusterMetadata) (history : History) : Prop where
  owner_le : ∀ shardId index owner, history.owners shardId index = some owner →
    0 < index ∧ index ≤ (metadata.shards shardId).lastLogIndex
  owner_routed : ∀ shardId index requestId mutation,
    history.owners shardId index = some (requestId, mutation) →
    mutation ∈ history.written ∧
      ∃ pointId, mutationId mutation = .ok pointId ∧ metadata.route pointId = shardId
  table_owned : ∀ requestId record, metadata.requestTable requestId = some record →
    ∃ mutation, history.owners record.shardId record.index = some (requestId, mutation) ∧
      record.checksum = checksumOf mutation
  learned : ∀ shardId entry, (shardId, entry) ∈ history.learned →
    AllowedRecord metadata history shardId (.prepare entry) ∧
      AllowedRecord metadata history shardId (.commit entry.index)
  exported : ∀ shardId index, (shardId, index) ∈ history.exported →
    index ≤ (metadata.shards shardId).lastLogIndex
  acknowledged : ∀ result mutation, (result, mutation) ∈ history.acknowledged →
    ∃ record, metadata.requestTable result.requestId = some record ∧
      record.shardId = result.shardId ∧ record.index = result.index

/-- A cluster whose metadata was published: memory and file agree, and the nodes hold nothing
that the metadata and the history do not allow. -/
structure Live (world : World) : Prop where
  published : world.published = some world.metadata
  valid : world.metadata.Valid
  ledger : Ledger world.metadata world.history
  traced : ∀ name shardId,
    (traceOf world.metadata world.history name shardId).OnReplica (world.replica name shardId)

/-- A cluster that never published anything. -/
structure Pristine (world : World) : Prop where
  published : world.published = none
  down : world.up = false
  history : world.history = .empty
  replicas : ∀ name shardId, world.replica name shardId = .initial

/-- The invariant of a cluster. -/
def Inv (world : World) : Prop :=
  Pristine world ∨ Live world

/-- Every retry routes to the shard its request was recorded for. -/
def Routed (history : History) : Prop :=
  ∀ retry ∈ history.retries, retry.shardId = retry.record.shardId

/-! ## Growth -/

/-- The metadata and the history only grow, in what the invariant reads of them. -/
structure Grows (metadata next : ClusterMetadata) (history later : History) : Prop where
  dimension : next.dimension = metadata.dimension
  shardCount : next.shardCount = metadata.shardCount
  last_le : ∀ shardId,
    (metadata.shards shardId).lastLogIndex ≤ (next.shards shardId).lastLogIndex
  term_le : ∀ shardId, (metadata.shards shardId).term ≤ (next.shards shardId).term
  epoch_le : ∀ shardId name,
    (metadata.shards shardId).epochOf name ≤ (next.shards shardId).epochOf name
  table : ∀ requestId record, metadata.requestTable requestId = some record →
    ∃ record', next.requestTable requestId = some record' ∧ record'.shardId = record.shardId ∧
      record'.index = record.index
  owners : ∀ shardId index owner, history.owners shardId index = some owner →
    later.owners shardId index = some owner
  written : history.written ⊆ later.written

variable {metadata next : ClusterMetadata} {history later : History}

omit [FloatRepr] in
theorem grows_history (howners : later.owners = history.owners)
    (hwritten : history.written ⊆ later.written) : Grows metadata metadata history later :=
  ⟨rfl, rfl, fun _ => le_rfl, fun _ => le_rfl, fun _ _ => le_rfl,
    fun _ record h => ⟨record, h, rfl, rfl⟩, fun _ _ _ h => howners ▸ h, hwritten⟩

theorem Grows.allowed (h : Grows metadata next history later) {shardId : Nat}
    {line : JournalRecord} (hline : AllowedRecord metadata history shardId line) :
    AllowedRecord next later shardId line := by
  cases line with
  | prepare entry =>
      obtain ⟨hwritten, hchecksum, hle, requestId, mutation, howner, hrest⟩ := hline
      exact ⟨h.written hwritten, hchecksum, hle.trans (h.last_le shardId), requestId, mutation,
        h.owners _ _ _ howner, hrest⟩
  | commit index =>
      obtain ⟨requestId, record, hrecord, rfl, rfl⟩ := hline
      obtain ⟨record', hrecord', hshard, hindex⟩ := h.table requestId record hrecord
      exact ⟨requestId, record', hrecord', hshard, hindex⟩
  | snapshot index => exact le_trans hline (h.last_le shardId)

variable {name : String}

omit [FloatRepr] in
theorem Grows.behind (h : Grows metadata next history later) {shardId : Nat}
    {state : ReplicaState} (hstate : Behind (metadata.shards shardId) name state) :
    Behind (next.shards shardId) name state :=
  ⟨hstate.term_le.trans (h.term_le shardId), hstate.epoch_le.trans (h.epoch_le shardId name),
    hstate.applied_le.trans (h.last_le shardId)⟩

theorem Grows.traced (h : Grows metadata next history later) {shardId : Nat} {replica : Replica}
    (hreplica : (traceOf metadata history name shardId).OnReplica replica) :
    (traceOf next later name shardId).OnReplica replica :=
  hreplica.mono (fun _ => h.allowed) (fun _ => h.behind) rfl h.dimension.symm

/-- Owners keep their route, and results keep their record. -/
theorem Grows.ledger (h : Grows metadata next history later) (hledger : Ledger metadata history)
    (hnew : ∀ shardId index requestId mutation,
      later.owners shardId index = some (requestId, mutation) →
      history.owners shardId index = some (requestId, mutation) ∨
        (0 < index ∧ index ≤ (next.shards shardId).lastLogIndex) ∧ mutation ∈ later.written ∧
          ∃ pointId, mutationId mutation = .ok pointId ∧ metadata.route pointId = shardId)
    (htable : ∀ requestId record, next.requestTable requestId = some record →
      ∃ mutation, later.owners record.shardId record.index = some (requestId, mutation) ∧
        record.checksum = checksumOf mutation)
    (hlearned : ∀ shardId entry, (shardId, entry) ∈ later.learned →
      (shardId, entry) ∈ history.learned ∨
        AllowedRecord next later shardId (.prepare entry) ∧
          AllowedRecord next later shardId (.commit entry.index))
    (hexported : ∀ shardId index, (shardId, index) ∈ later.exported →
      (shardId, index) ∈ history.exported ∨ index ≤ (next.shards shardId).lastLogIndex)
    (hacknowledged : ∀ result mutation, (result, mutation) ∈ later.acknowledged →
      (result, mutation) ∈ history.acknowledged ∨
        ∃ record, next.requestTable result.requestId = some record ∧
          record.shardId = result.shardId ∧ record.index = result.index) :
    Ledger next later := by
  have hroute : ∀ pointId, next.route pointId = metadata.route pointId := by
    intro pointId
    rw [route, route, h.shardCount]
  refine ⟨?_, ?_, htable, ?_, ?_, ?_⟩
  · rintro shardId index ⟨requestId, mutation⟩ howner
    rcases hnew shardId index requestId mutation howner with hold | ⟨hbound, -⟩
    · have hle := hledger.owner_le shardId index _ hold
      exact ⟨hle.1, hle.2.trans (h.last_le shardId)⟩
    · exact hbound
  · intro shardId index requestId mutation howner
    rcases hnew shardId index requestId mutation howner with hold | ⟨-, hrest⟩
    · obtain ⟨hwritten, pointId, hid, hpoint⟩ := hledger.owner_routed _ _ _ _ hold
      exact ⟨h.written hwritten, pointId, hid, (hroute pointId).trans hpoint⟩
    · obtain ⟨hwritten, pointId, hid, hpoint⟩ := hrest
      exact ⟨hwritten, pointId, hid, (hroute pointId).trans hpoint⟩
  · intro shardId entry hentry
    rcases hlearned shardId entry hentry with hold | hnow
    · have hallowed := hledger.learned shardId entry hold
      exact ⟨h.allowed hallowed.1, h.allowed hallowed.2⟩
    · exact hnow
  · intro shardId index hindex
    rcases hexported shardId index hindex with hold | hnow
    · exact (hledger.exported shardId index hold).trans (h.last_le shardId)
    · exact hnow
  · intro result mutation hresult
    rcases hacknowledged result mutation hresult with hold | hnow
    · obtain ⟨record, hrecord, hshard, hindex⟩ := hledger.acknowledged result mutation hold
      obtain ⟨record', hrecord', hshard', hindex'⟩ := h.table _ record hrecord
      exact ⟨record', hrecord', hshard'.trans hshard, hindex'.trans hindex⟩
    · exact hnow

/-! ## Steps that leave the metadata alone -/

variable {entry : ReplicatedEntry}

theorem ReplicatedEntry.checksum_eq {u : Unit} (h : entry.validate = .ok u) :
    entry.mutationChecksum = checksumOf entry.mutation := by
  simp only [validate, bind_ok, require_ok, exists_unit] at h
  exact h.2.2.2

theorem allowed_relayed {shardId : Nat} {old entry : ReplicatedEntry} {u : Unit}
    (h : AllowedRecord metadata history shardId (.prepare old)) (hvalid : entry.validate = .ok u)
    (hindex : old.index = entry.index) (hrequest : old.requestId = entry.requestId)
    (hmutation : old.mutation = entry.mutation) :
    AllowedRecord metadata history shardId (.prepare entry) := by
  obtain ⟨hwritten, hsum, hle, requestId, mutation, howner, hold, hchecksum⟩ := h
  have hsame : entry.mutationChecksum = old.mutationChecksum := by
    rw [entry.checksum_eq hvalid, hsum, hmutation]
  exact ⟨hmutation ▸ hwritten, entry.checksum_eq hvalid, hindex ▸ hle, requestId, mutation,
    hindex ▸ howner, hrequest.symm.trans hold, hsame.trans hchecksum⟩

variable {requestId : RequestId}

variable {mutation : Json}

section

variable {world after : World}

/-- A step that leaves the metadata and what the invariant reads of the history alone. -/
theorem Live.same (h : Live world) (hmetadata : after.metadata = world.metadata)
    (hpublished : after.published = world.published)
    (howners : after.history.owners = world.history.owners)
    (hwritten : after.history.written = world.history.written)
    (hlearned : after.history.learned = world.history.learned)
    (hexported : after.history.exported = world.history.exported)
    (hacknowledged : after.history.acknowledged = world.history.acknowledged)
    (htraced : ∀ name shardId, (traceOf world.metadata world.history name shardId).OnReplica
      (after.replica name shardId)) : Live after := by
  have hgrows : Grows world.metadata after.metadata world.history after.history := by
    rw [hmetadata]
    exact grows_history howners (by simp [hwritten])
  refine ⟨by rw [hpublished, hmetadata, h.published], hmetadata ▸ h.valid, ?_, ?_⟩
  · refine hgrows.ledger h.ledger ?_ ?_ ?_ ?_ ?_
    · exact fun _ _ _ _ howner => .inl (howners ▸ howner)
    · intro requestId record hrecord
      rw [hmetadata] at hrecord
      rw [howners]
      exact h.ledger.table_owned requestId record hrecord
    · exact fun _ _ hentry => .inl (hlearned ▸ hentry)
    · exact fun _ _ hindex => .inl (hexported ▸ hindex)
    · exact fun _ _ hresult => .inl (hacknowledged ▸ hresult)
  · exact fun name shardId => hgrows.traced (htraced name shardId)

omit [FloatRepr] in
theorem replica_set_replica (name : String) (shardId : Nat) (replica : Replica)
    (other : String) (shard : Nat) :
    (world.setReplica name shardId replica).replica other shard =
      if other = name ∧ shard = shardId then replica else world.replica other shard := by
  simp only [World.setReplica, World.setNode, World.replica, Node.setReplica]
  by_cases hname : other = name
  · by_cases hshard : shard = shardId <;> simp [hname, hshard]
  · simp [hname]

theorem Live.set_replica (h : Live world) {shardId : Nat} {replica : Replica}
    (hreplica : (traceOf world.metadata world.history name shardId).OnReplica replica) :
    Live (world.setReplica name shardId replica) := by
  refine h.same rfl rfl rfl rfl rfl rfl rfl fun other shard => ?_
  rw [replica_set_replica]
  split
  · next heq => exact heq.1 ▸ heq.2 ▸ hreplica
  · exact h.traced other shard

theorem Live.call (h : Live world) {shardId : Nat} {writes : Option Nat} {call : ReplicaCall}
    (hpermits : (traceOf world.metadata world.history name shardId).Permits call) :
    Live (world.callReplica name shardId writes call) :=
  h.set_replica (traced_call (h.traced name shardId) hpermits)

theorem Live.deliver (h : Live world) {writes : Option Nat}
    (hentry : AllowedRecord world.metadata world.history entry.shardId (.prepare entry))
    (hmark : AllowedRecord world.metadata world.history entry.shardId (.commit entry.index)) :
    Live (world.deliverCommit name entry writes) := by
  have hnoted : Live (world.note ((commitRequest entry).note (world.nodes name))) :=
    h.same rfl rfl rfl rfl rfl rfl rfl h.traced
  exact hnoted.call ⟨hentry, hmark⟩

theorem Live.nodes (h : Live world) {nodes : String → Node} {up closed : Bool}
    (hnodes : ∀ name, nodes name = world.nodes name ∨
      ∀ shardId, (nodes name).replicas shardId = ⟨(world.replica name shardId).disk, none⟩ ∨
        (nodes name).replicas shardId = world.replica name shardId) :
    Live { world with nodes, up, closed } := by
  refine h.same rfl rfl rfl rfl rfl rfl rfl fun name shardId => ?_
  change (traceOf world.metadata world.history name shardId).OnReplica
    ((nodes name).replicas shardId)
  rcases hnodes name with hsame | hstopped
  · rw [hsame]
    exact h.traced name shardId
  · rcases hstopped shardId with hstopped | hsame
    · rw [hstopped]
      exact (h.traced name shardId).stop
    · rw [hsame]
      exact h.traced name shardId

theorem Live.set_node (h : Live world) {node : Node}
    (hnode : ∀ shardId, node.replicas shardId = ⟨(world.replica name shardId).disk, none⟩ ∨
      node.replicas shardId = world.replica name shardId) :
    Live (world.setNode name node) := by
  refine h.nodes fun other => ?_
  by_cases hother : other = name
  · exact .inr fun shardId => by simpa [hother] using hnode shardId
  · exact .inl (by simp [hother])

theorem Live.entries (h : Live world) {shardId index : Nat}
    (hentry : entry ∈ (world.nodes name).entriesAfter shardId index) :
    AllowedRecord world.metadata world.history shardId (.prepare entry) ∧
      AllowedRecord world.metadata world.history shardId (.commit entry.index) := by
  have htraced := h.traced name shardId
  unfold Node.entriesAfter at hentry
  cases hshard : ((world.nodes name).replicas shardId).shard with
  | none => simp [hshard] at hentry
  | some shard =>
      rw [hshard] at hentry
      obtain ⟨other, hother, -, hget⟩ := ReplicaJournal.mem_committed_after.1 hentry
      have hreflects := ReplicaJournal.reflects_load (htraced.shard shard hshard).loads
      obtain ⟨hline, rfl⟩ := hreflects.prepared_mem other entry hget
      exact ⟨htraced.disk.lines _ hline,
        htraced.disk.lines _ ((hreflects.committed_iff _).1 hother)⟩

theorem Live.learn (h : Live world) {shardId index : Nat} :
    Live (world.note ((entriesRequest shardId index).note (world.nodes name))) := by
  have hgrows : Grows world.metadata world.metadata world.history
      ((entriesRequest shardId index).note (world.nodes name) world.history) :=
    grows_history rfl fun _ h => h
  refine ⟨h.published, h.valid, hgrows.ledger h.ledger (fun _ _ _ _ howner => .inl howner)
    h.ledger.table_owned ?_ (fun _ _ hindex => .inl hindex) (fun _ _ hresult => .inl hresult),
    fun name shardId => hgrows.traced (h.traced name shardId)⟩
  intro shard entry hentry
  rcases List.mem_append.1 hentry with hnew | hold
  · obtain ⟨other, hother, heq⟩ := List.mem_map.1 hnew
    cases heq
    exact .inr (h.entries hother)
  · exact .inl hold

theorem Live.export_rows (h : Live world) {shardId : Nat} :
    Live (world.note ((exportRequest shardId).note (world.nodes name))) := by
  have hgrows : Grows world.metadata world.metadata world.history
      ((exportRequest shardId).note (world.nodes name) world.history) :=
    grows_history rfl fun _ h => h
  refine ⟨h.published, h.valid, hgrows.ledger h.ledger (fun _ _ _ _ howner => .inl howner)
    h.ledger.table_owned (fun _ _ hentry => .inl hentry) ?_ (fun _ _ hresult => .inl hresult),
    fun name shardId => hgrows.traced (h.traced name shardId)⟩
  intro shard index hindex
  rcases List.mem_cons.1 hindex with heq | hold
  · obtain ⟨rfl, rfl⟩ := Prod.mk.inj heq
    refine .inr ?_
    unfold Node.appliedIndex
    cases hshard : ((world.nodes name).replicas shard).shard with
    | none => simp
    | some open_ => exact ((h.traced name shard).shard open_ hshard).state.applied_le
  · exact .inl hold

theorem Live.submit (h : Live world) :
    Live (world.submitted mutation) := by
  have hgrows : Grows world.metadata world.metadata world.history
      { world.history with written := mutation :: world.history.written } :=
    grows_history rfl fun _ h => List.mem_cons_of_mem _ h
  exact ⟨h.published, h.valid, hgrows.ledger h.ledger (fun _ _ _ _ howner => .inl howner)
    h.ledger.table_owned (fun _ _ hentry => .inl hentry) (fun _ _ hindex => .inl hindex)
    (fun _ _ hresult => .inl hresult), fun name shardId => hgrows.traced (h.traced name shardId)⟩

theorem Live.answer (h : Live world) {shardId : Nat} {record : RequestRecord}
    (hfound : Found world requestId mutation shardId record) (hrouted : shardId = record.shardId) :
    Live ((world.noteRetry (world.retryOf requestId mutation shardId record)).note
      (·.acknowledge ⟨shardId, record.term, record.index, requestId⟩ mutation)) := by
  have hgrows : Grows world.metadata world.metadata world.history
      ((world.noteRetry (world.retryOf requestId mutation shardId record)).history.acknowledge
        ⟨shardId, record.term, record.index, requestId⟩ mutation) :=
    grows_history rfl fun _ h => h
  refine ⟨h.published, h.valid, hgrows.ledger h.ledger (fun _ _ _ _ howner => .inl howner)
    h.ledger.table_owned (fun _ _ hentry => .inl hentry) (fun _ _ hindex => .inl hindex) ?_,
    fun name shardId => hgrows.traced (h.traced name shardId)⟩
  intro result other hresult
  rcases List.mem_cons.1 hresult with heq | hold
  · obtain ⟨rfl, -⟩ := Prod.mk.inj heq
    exact .inr ⟨record, hfound.recorded, hrouted.symm, rfl⟩
  · exact .inl hold

end

/-! ## Publications -/

section

variable {world : World} {shardId : Nat}

omit [FloatRepr] in
/-- A change of one placement that moves it forward. -/
theorem grows_edit_shard {change : ShardPlacement → ShardPlacement}
    (hlast : (metadata.shards shardId).lastLogIndex ≤
      (change (metadata.shards shardId)).lastLogIndex)
    (hterm : (metadata.shards shardId).term ≤ (change (metadata.shards shardId)).term)
    (hepoch : ∀ name, (metadata.shards shardId).epochOf name ≤
      (change (metadata.shards shardId)).epochOf name)
    (howners : ∀ shard index owner, history.owners shard index = some owner →
      later.owners shard index = some owner)
    (hwritten : history.written ⊆ later.written) :
    Grows metadata (metadata.editShard shardId change) history later := by
  refine ⟨rfl, rfl, fun shard => ?_, fun shard => ?_, fun shard name => ?_,
    fun _ record h => ⟨record, h, rfl, rfl⟩, howners, hwritten⟩
  all_goals
    simp only [editShard]
    split
    · next heq =>
        subst heq
        first | exact hlast | exact hterm | exact hepoch name
    · exact le_rfl

omit [FloatRepr] in
theorem Grows.record (h : Grows metadata next history later) {requestId : RequestId}
    {record : RequestRecord}
    (hrecord : ∀ old, metadata.requestTable requestId = some old →
      record.shardId = old.shardId ∧ record.index = old.index) :
    Grows metadata (next.record requestId record) history later := by
  refine ⟨h.dimension, h.shardCount, h.last_le, h.term_le, h.epoch_le, ?_, h.owners, h.written⟩
  intro request old hold
  simp only [ClusterMetadata.record]
  split
  · next heq =>
      subst heq
      exact ⟨record, rfl, hrecord old hold⟩
  · exact h.table request old hold

/-- What an allowed edit makes of the metadata and the history. -/
structure Edited (metadata next : ClusterMetadata) (history later : History) : Prop where
  valid : next.Valid
  grows : Grows metadata next history later
  ledger : Ledger next later

theorem edited_placement (h : Live world) (hvalid : next.Valid)
    (hgrows : Grows world.metadata next world.history world.history)
    (htable : next.requestTable = world.metadata.requestTable) :
    Edited world.metadata next world.history world.history := by
  refine ⟨hvalid, hgrows, hgrows.ledger h.ledger (fun _ _ _ _ howner => .inl howner) ?_
    (fun _ _ hentry => .inl hentry) (fun _ _ hindex => .inl hindex)
    fun _ _ hresult => .inl hresult⟩
  rw [htable]
  exact h.ledger.table_owned

/-- Allocating the next index of a shard. -/
theorem edited_allocate (h : Live world) {pointId : Int}
    (hwritten : mutation ∈ world.history.written) (hid : mutationId mutation = .ok pointId)
    (hroute : world.metadata.route pointId = shardId) :
    Edited world.metadata (world.metadata.edit (.allocate shardId)) world.history
      (world.history.own shardId ((world.metadata.shards shardId).lastLogIndex + 1) requestId
        mutation) := by
  have howners : ∀ shard index owner, world.history.owners shard index = some owner →
      (world.history.own shardId ((world.metadata.shards shardId).lastLogIndex + 1) requestId
        mutation).owners shard index = some owner := by
    intro shard index owner howner
    simp only [History.own]
    rw [if_neg]
    · exact howner
    · rintro ⟨rfl, rfl⟩
      have hle := (h.ledger.owner_le _ _ _ howner).2
      omega
  have hgrows := @grows_edit_shard world.metadata world.history _ shardId (fun placement =>
    { placement with lastLogIndex := placement.lastLogIndex + 1 }) (Nat.le_succ _) le_rfl
    (fun _ => le_rfl) howners fun _ hmem => hmem
  have hvalid : (world.metadata.edit (.allocate shardId)).Valid :=
    valid_edit h.valid trivial
  refine ⟨hvalid, hgrows,
    hgrows.ledger h.ledger ?_ ?_ (fun _ _ hentry => .inl hentry)
      (fun _ _ hindex => .inl hindex) fun _ _ hresult => .inl hresult⟩
  · intro shard index request other howner
    simp only [History.own] at howner
    split at howner
    · next heq =>
        obtain ⟨rfl, rfl⟩ := heq
        cases howner
        exact .inr ⟨⟨Nat.succ_pos _, by simp [editShard]⟩, hwritten, pointId, hid,
          hroute⟩
    · exact .inl howner
  · intro request record hrecord
    obtain ⟨owned, howned, hchecksum⟩ := h.ledger.table_owned request record hrecord
    exact ⟨owned, howners _ _ _ howned, hchecksum⟩

/-- Recording a request under an index it owns. -/
theorem edited_record (h : Live world) {requestId : RequestId} {record : RequestRecord}
    (hvalid : next.Valid) (hgrows : Grows world.metadata next world.history later)
    (htable : next.requestTable = world.metadata.requestTable)
    (howners : later.owners = world.history.owners)
    (hlearned : later.learned = world.history.learned)
    (hexported : later.exported = world.history.exported)
    (howner : world.history.owners record.shardId record.index = some (requestId, mutation))
    (hchecksum : record.checksum = checksumOf mutation)
    (hrecord : ∀ old, world.metadata.requestTable requestId = some old →
      record.shardId = old.shardId ∧ record.index = old.index)
    (hacknowledged : ∀ result mutation, (result, mutation) ∈ later.acknowledged →
      (result, mutation) ∈ world.history.acknowledged ∨
        result.requestId = requestId ∧ result.shardId = record.shardId ∧
          result.index = record.index) :
    Edited world.metadata (next.record requestId record) world.history later := by
  have hrecorded := hgrows.record hrecord
  refine ⟨valid_record hvalid, hrecorded, hrecorded.ledger h.ledger
    (fun _ _ _ _ howned => .inl (howners ▸ howned)) ?_ (fun _ _ hentry => .inl (hlearned ▸ hentry))
    (fun _ _ hindex => .inl (hexported ▸ hindex)) ?_⟩
  · intro request other hother
    rw [howners]
    simp only [ClusterMetadata.record] at hother
    split at hother
    · next heq =>
        subst heq
        cases hother
        exact ⟨mutation, howner, hchecksum⟩
    · rw [htable] at hother
      exact h.ledger.table_owned request other hother
  · intro result other hresult
    rcases hacknowledged result other hresult with hold | ⟨hrequest, hshard, hindex⟩
    · exact .inl hold
    · exact .inr ⟨record, by simp [ClusterMetadata.record, hrequest], hshard.symm, hindex.symm⟩

/-- Every allowed edit. -/
theorem edited_of_edits (h : Live world) {edit : MetadataEdit} {note : History → History}
    (hedit : Edits world edit note) :
    Edited world.metadata (world.metadata.edit edit) world.history (note world.history) := by
  cases hedit with
  | rejoin =>
      have hgrows : Grows world.metadata (world.metadata.edit .rejoin) world.history
          world.history :=
        ⟨rfl, rfl, fun _ => le_rfl, fun _ => le_rfl, fun _ _ => le_rfl,
          fun _ record hrecord => ⟨record, hrecord, rfl, rfl⟩, fun _ _ _ howner => howner,
          fun _ hmem => hmem⟩
      exact edited_placement h (valid_epoch h.valid) hgrows rfl
  | @elect shard leader hleader =>
      have hvalid : (world.metadata.edit (.elect shard leader)).Valid :=
        valid_edit h.valid hleader
      simp only [edit] at hvalid ⊢
      refine edited_placement h hvalid
        (grows_edit_shard le_rfl (Nat.le_succ _) (fun name => ?_) (fun _ _ _ howner => howner)
          fun _ hmem => hmem) rfl
      simp only [ShardPlacement.epochOf]
      split <;> omega
  | allocate hwritten hid hroute => exact edited_allocate h hwritten hid hroute
  | recordPrepared hnew howner =>
      have hgrows : Grows world.metadata { world.metadata with epoch := world.metadata.epoch + 1 }
          world.history world.history :=
        ⟨rfl, rfl, fun _ => le_rfl, fun _ => le_rfl, fun _ _ => le_rfl,
          fun _ record hrecord => ⟨record, hrecord, rfl, rfl⟩, fun _ _ _ howner => howner,
          fun _ hmem => hmem⟩
      exact edited_record h (valid_epoch h.valid) hgrows rfl rfl rfl rfl howner rfl
        (by simp [hnew]) fun _ _ hresult => .inl hresult
  | @addReplica shard name hnew hmember _ =>
      have hvalid : (world.metadata.edit (.addReplica shard name
          ((world.metadata.shards shard).placementEpoch + 1))).Valid :=
        valid_edit h.valid ⟨hnew, hmember, Nat.succ_pos _⟩
      simp only [edit] at hvalid ⊢
      refine edited_placement h hvalid
        (grows_edit_shard le_rfl le_rfl (fun other => ?_) (fun _ _ _ howner => howner)
          fun _ hmem => hmem) rfl
      simp only [ShardPlacement.epochOf, List.mem_append]
      split <;> split <;> simp_all

theorem Live.publish (h : Live world) {note : History → History}
    (hedited : Edited world.metadata next world.history (note world.history)) :
    Live ((world.publishing next).note note) :=
  ⟨rfl, hedited.valid, hedited.ledger,
    fun name shardId => hedited.grows.traced (h.traced name shardId)⟩

/-! ## Commit rounds -/

theorem Live.round (h : Live world) (hrouted : Routed world.history)
    (hround : Round world requestId entry) :
    ∃ record, world.metadata.requestTable requestId = some record ∧
      record.shardId = entry.shardId ∧ record.index = entry.index ∧
      AllowedRecord world.metadata world.history entry.shardId (.prepare entry) ∧
      AllowedRecord world.metadata world.history entry.shardId (.commit entry.index) := by
  obtain ⟨record, hrecord, hindex, hchecksum, hkind⟩ := hround.recorded
  have hshard : record.shardId = entry.shardId := by
    rcases hkind with ⟨hshard, -⟩ | ⟨retry, hretry, -, -, hroute, rfl, -⟩
    · exact hshard
    · exact (hrouted retry hretry).symm.trans hroute
  obtain ⟨mutation, howner, hsum⟩ := h.ledger.table_owned requestId record hrecord
  rw [hshard, hindex] at howner
  refine ⟨record, hrecord, hshard, hindex, ⟨hround.written, hround.checksum,
    (h.ledger.owner_le _ _ _ howner).2, requestId, mutation, howner, hround.request,
    hchecksum.symm.trans hsum⟩, requestId, record, hrecord, hshard, hindex⟩

/-- What the commits of a round leave alone. -/
structure SameLedger (world sent : World) : Prop where
  metadata : sent.metadata = world.metadata
  owners : sent.history.owners = world.history.owners
  written : sent.history.written = world.history.written
  learned : sent.history.learned = world.history.learned
  exported : sent.history.exported = world.history.exported
  acknowledged : sent.history.acknowledged = world.history.acknowledged
  retries : sent.history.retries = world.history.retries

theorem same_ledger_sends {sent : World} (h : Sends entry world sent) : SameLedger world sent := by
  induction h with
  | refl => exact ⟨rfl, rfl, rfl, rfl, rfl, rfl, rfl⟩
  | tail _ hsend ih =>
      cases hsend <;> exact ⟨ih.metadata, ih.owners, ih.written, ih.learned, ih.exported,
        ih.acknowledged, ih.retries⟩

omit [FloatRepr] in
theorem grows_same_ledger {sent : World} (h : SameLedger world sent) :
    Grows world.metadata sent.metadata world.history sent.history := by
  rw [h.metadata]
  exact grows_history h.owners (by simp [h.written])

theorem Live.sends (h : Live world) {sent : World}
    (hentry : AllowedRecord world.metadata world.history entry.shardId (.prepare entry))
    (hmark : AllowedRecord world.metadata world.history entry.shardId (.commit entry.index))
    (hsends : Sends entry world sent) : Live sent := by
  induction hsends with
  | refl => exact h
  | @tail reached next hreached hsend ih =>
      have hgrows := grows_same_ledger (same_ledger_sends hreached)
      cases hsend with
      | faults faults => exact ih.same rfl rfl rfl rfl rfl rfl rfl ih.traced
      | stop name => exact ih.set_node fun _ => .inl rfl
      | deliver name writes => exact ih.deliver (hgrows.allowed hentry) (hgrows.allowed hmark)

/-- The metadata after a successful round. -/
theorem edited_committing (h : Live world) {record : RequestRecord}
    (hrecord : world.metadata.requestTable requestId = some record)
    (hshard : record.shardId = entry.shardId) (hindex : record.index = entry.index)
    (hentry : AllowedRecord world.metadata world.history entry.shardId (.prepare entry)) :
    Edited world.metadata (world.metadata.edit (committing requestId entry)) world.history
      (world.history.acknowledge ⟨entry.shardId, entry.term, entry.index, requestId⟩
        entry.mutation) := by
  obtain ⟨-, -, hle, owner, mutation, howner, -, hsum⟩ := hentry
  obtain ⟨owned, howned, -⟩ := h.ledger.table_owned requestId record hrecord
  rw [hshard, hindex] at howned
  cases howner.symm.trans howned
  refine edited_record h (valid_edit_shard h.valid fun hplaced => ?_)
    (grows_edit_shard le_rfl le_rfl (fun _ => le_rfl) (fun _ _ _ howner => howner)
      fun _ hmem => hmem) rfl rfl rfl rfl howned hsum ?_ ?_
  · exact ⟨hplaced.term_pos, hplaced.epoch_pos, hplaced.nodup, hplaced.leader_mem,
      max_le hplaced.committed_le hle, hplaced.members⟩
  · intro old hold
    cases hrecord.symm.trans hold
    exact ⟨hshard.symm, hindex.symm⟩
  · intro result mutation hresult
    rcases List.mem_cons.1 hresult with heq | hold
    · obtain ⟨rfl, -⟩ := Prod.mk.inj heq
      exact .inr ⟨rfl, rfl, rfl⟩
    · exact .inl hold

/-! ## Steps and runs -/

variable {after : World}

theorem retries_subset_of_act (h : Act world after) :
    world.history.retries ⊆ after.history.retries := by
  cases h with
  | retry _ => exact fun _ hmem => List.mem_cons_of_mem _ hmem
  | answer _ _ => exact fun _ hmem => List.mem_cons_of_mem _ hmem
  | serve name shardId _ _ =>
      simp only [World.note, noteServed]
      split <;> exact fun _ hmem => hmem
  | publish hedit _ => cases hedit <;> exact fun _ hmem => hmem
  | round _ hsends hend =>
      have hsame := (same_ledger_sends hsends).retries
      cases hend <;> exact fun _ hmem => by simpa [World.note, World.publishing,
        History.acknowledge, hsame] using hmem
  | _ => exact fun _ hmem => hmem

/-- Every action keeps the invariant. -/
theorem Live.act (h : Live world) (hact : Act world after) (hrouted : Routed after.history) :
    Live after := by
  have hbefore : Routed world.history := fun retry hretry =>
    hrouted retry (retries_subset_of_act hact hretry)
  cases hact with
  | faults faults => exact h.same rfl rfl rfl rfl rfl rfl rfl h.traced
  | shutdown => exact h.nodes fun name => .inr fun shardId => .inl rfl
  | stop name => exact h.set_node fun _ => .inl rfl
  | start name => exact h.set_node fun _ => .inl rfl
  | partition name enabled => exact h.set_node fun _ => .inr rfl
  | call name shardId writes hcalls =>
      refine h.call ?_
      cases hcalls with
      | configure hconfigures =>
          obtain ⟨rfl, hepoch⟩ := hconfigures
          intro state hstate
          refine ⟨le_rfl, ?_, hstate.applied_le⟩
          rcases hepoch with ⟨hmem, rfl⟩ | ⟨hmem, rfl⟩ <;> simp [ShardPlacement.epochOf, hmem]
      | prepare hshard hvalid hentry =>
          subst hshard
          rcases hentry with ⟨requestId, hrequest, howner⟩ | ⟨old, hold, hindex, hrequest, hmutation⟩
          · have hsum := ReplicatedEntry.checksum_eq hvalid
            exact ⟨(h.ledger.owner_routed _ _ _ _ howner).1, hsum,
              (h.ledger.owner_le _ _ _ howner).2, requestId, _, howner, hrequest, hsum⟩
          · exact allowed_relayed (h.ledger.learned _ _ hold).1 hvalid hindex hrequest hmutation
      | reopen _ => trivial
  | relay name writes hvalid hrelayed =>
      obtain ⟨old, hold, hindex, hrequest, hmutation⟩ := hrelayed
      obtain ⟨hentry, hmark⟩ := h.ledger.learned _ _ hold
      exact h.deliver (allowed_relayed hentry hvalid hindex hrequest hmutation) (hindex ▸ hmark)
  | install name shardId writes rows hexported hnew =>
      have hle := h.ledger.exported shardId _ hexported
      refine h.set_replica (traced_method (h.traced name shardId) fun _ hp =>
        traced_install_snapshot hp hle ⟨le_rfl, ?_, hle⟩)
      simp [ShardPlacement.epochOf, hnew]
  | learn name shardId index => exact h.learn
  | exportRows name shardId => exact h.export_rows
  | serve name shardId _ _ =>
      refine h.same rfl rfl ?_ ?_ ?_ ?_ ?_ h.traced
      all_goals
        simp only [World.note, noteServed]
        split <;> rfl
  | submit mutation => exact h.submit
  | retry hfound => exact h.same rfl rfl rfl rfl rfl rfl rfl h.traced
  | answer hfound hstatus => exact h.answer hfound (hrouted _ List.mem_cons_self)
  | publish hedit hvalid => exact h.publish (edited_of_edits h hedit)
  | refuse hedit hinvalid =>
      exact absurd (validate_ok.2 (edited_of_edits h hedit).valid) hinvalid
  | @round sent after requestId entry hround hsends hend =>
      obtain ⟨record, hrecord, hshard, hindex, hentry, hmark⟩ := h.round hbefore hround
      have hsent := h.sends hentry hmark hsends
      have hsame := same_ledger_sends hsends
      have hentry' := (grows_same_ledger hsame).allowed hentry
      have hedited := edited_committing hsent (hsame.metadata ▸ hrecord) hshard hindex hentry'
      cases hend with
      | failed => exact hsent
      | published hvalid => exact hsent.publish hedited
      | refused hinvalid => exact absurd (validate_ok.2 hedited.valid) hinvalid

theorem Live.acts (h : Live world) (hacts : Acts world after) (hrouted : Routed after.history) :
    Live after := by
  induction hacts with
  | refl => exact h
  | tail _ hact ih =>
      refine (ih fun retry hretry => hrouted retry ?_).act hact hrouted
      exact retries_subset_of_act hact hretry

theorem traced_initial (trace : Trace) (h : trace.states ⟨0, 0, 0⟩) :
    trace.OnReplica .initial :=
  ⟨⟨fun _ hline => (by cases hline), h⟩, fun _ hshard => (by cases hshard)⟩

/-- The metadata a coordinator starts with, when there was none or when it reads it back. -/
theorem Inv.boot (h : Inv world) {options : Options}
    (hstart : startingMetadata options world.published = .ok metadata)
    (hvalid : metadata.validate = .ok ()) :
    Live { world with metadata, published := some metadata, up := true } := by
  have hvalid := validate_ok.1 hvalid
  rcases h with hpristine | hlive
  · rw [hpristine.published] at hstart
    cases pure_ok.1 hstart
    refine ⟨rfl, hvalid, ?_, fun name shardId => ?_⟩
    · simp only [hpristine.history]
      exact ⟨by simp [History.empty], by simp [History.empty],
        by simp [Options.metadata], by simp [History.empty],
        by simp [History.empty], by simp [History.empty]⟩
    · change (traceOf _ _ name shardId).OnReplica (world.replica name shardId)
      rw [hpristine.replicas name shardId]
      exact traced_initial _ ⟨Nat.zero_le _, Nat.zero_le _, Nat.zero_le _⟩
  · rw [hlive.published] at hstart
    simp only [startingMetadata, bind_ok, require_ok, pure_ok] at hstart
    obtain ⟨-, -, -, -, -, -, rfl⟩ := hstart
    have hgrows : Grows world.metadata world.metadata.reopened world.history world.history :=
      ⟨rfl, rfl, fun _ => le_rfl, fun _ => le_rfl, fun _ _ => le_rfl,
        fun _ record hrecord => ⟨record, hrecord, rfl, rfl⟩, fun _ _ _ howner => howner,
        fun _ hmem => hmem⟩
    exact ⟨rfl, hvalid, (edited_placement hlive hvalid hgrows rfl).ledger,
      fun name shardId => hgrows.traced (hlive.traced name shardId)⟩

/-- Every step keeps the invariant. -/
theorem inv_step (h : Inv world) (hstep : Step world after) (hrouted : Routed after.history) :
    Inv after := by
  cases hstep with
  | act hup hact =>
      rcases h with hpristine | hlive
      · simp [hpristine.down] at hup
      · exact .inr (hlive.act hact hrouted)
  | faults faults =>
      rcases h with h | h
      · exact .inl ⟨h.published, h.down, h.history, h.replicas⟩
      · exact .inr (h.same rfl rfl rfl rfl rfl rfl rfl h.traced)
  | crash =>
      rcases h with h | h
      · refine .inl ⟨h.published, rfl, h.history, fun name shardId => ?_⟩
        exact congrArg (fun replica : Replica => (⟨replica.disk, none⟩ : Replica))
          (h.replicas name shardId)
      · exact .inr (h.nodes fun name => .inr fun shardId => .inl rfl)
  | reset options =>
      have hnodes : ∀ name shardId, (if name ∈ options.nodes then (world.nodes name).start
          else (world.nodes name).stop).replicas shardId =
            ⟨(world.replica name shardId).disk, none⟩ := by
        intro name shardId
        split <;> rfl
      rcases h with h | h
      · refine .inl ⟨h.published, rfl, h.history, fun name shardId => ?_⟩
        refine (hnodes name shardId).trans ?_
        rw [h.replicas name shardId]
        rfl
      · exact .inr (h.nodes fun name => .inr fun shardId => .inl (hnodes name shardId))
  | boot hstart hvalid => exact .inr (h.boot hstart hvalid)

theorem inv_initial : Inv World.initial :=
  .inl ⟨rfl, rfl, rfl, fun _ _ => rfl⟩

theorem retries_subset (h : Reaches world after) :
    world.history.retries ⊆ after.history.retries := by
  induction h with
  | refl => exact fun _ hmem => hmem
  | tail _ hstep ih =>
      cases hstep with
      | act _ hact => exact fun _ hmem => retries_subset_of_act hact (ih hmem)
      | _ => exact ih

theorem inv_reaches (h : Inv world) (hreaches : Reaches world after)
    (hrouted : Routed after.history) : Inv after := by
  induction hreaches with
  | refl => exact h
  | tail hreached hstep ih =>
      refine inv_step (ih fun retry hretry => hrouted retry ?_) hstep hrouted
      exact retries_subset (.single hstep) hretry

end

end Akasha.Distributed

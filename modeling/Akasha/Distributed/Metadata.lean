import Akasha.Distributed.Mutation

/-!
# Cluster metadata

The coordinator keeps one record of the cluster, `ClusterMetadata`, and publishes it as a whole
after every change. The changes it makes are the constructors of `MetadataEdit`; each one also
counts up the metadata epoch. Addresses, the cluster identifier and the collection configuration
are stored beside these fields, and no decision modelled here reads them.
-/

namespace Akasha.Distributed

open Lib

/-- A request identifier: `request_id or uuid.uuid4().hex` is never empty. -/
abbrev RequestId := { text : String // text ≠ "" }

/-- `ShardPlacement`. -/
structure ShardPlacement where
  term : Nat
  placementEpoch : Nat
  leader : String
  replicas : List String
  lastLogIndex : Nat
  committedIndex : Nat
deriving DecidableEq

/-- `ShardPlacement.quorum`. -/
def ShardPlacement.quorum (placement : ShardPlacement) : Nat :=
  placement.replicas.length / 2 + 1

/-- The `status` of a request. -/
inductive RequestStatus where
  | prepared
  | committed
deriving DecidableEq

/-- One entry of the request table. -/
structure RequestRecord where
  shardId : Nat
  term : Nat
  index : Nat
  checksum : Nat
  status : RequestStatus
deriving DecidableEq

/-- `ClusterMetadata`. `shardOrder` lists the keys of the `dict` of shards in its order. -/
structure ClusterMetadata where
  dimension : Nat
  shardCount : Nat
  replicationFactor : Nat
  epoch : Nat
  members : List String
  shardOrder : List Nat
  shards : Nat → ShardPlacement
  requestTable : RequestId → Option RequestRecord

/-- The checks `ClusterMetadata.validate` makes of one placement. -/
def ShardPlacement.validate (placement : ShardPlacement) (members : List String) :
    Except Error Unit := do
  require (0 < placement.term) (.protocol "invalid shard placement identity")
  require (0 < placement.placementEpoch) (.protocol "invalid shard placement epoch")
  require placement.replicas.Nodup (.protocol "duplicate shard replica")
  require (placement.leader ∈ placement.replicas) (.protocol "shard leader must be a replica")
  require (placement.quorum ≤ placement.replicas.length) (.protocol "shard cannot form quorum")
  require (placement.committedIndex ≤ placement.lastLogIndex)
    (.protocol "committed index exceeds shard log")
  require (∀ node ∈ placement.replicas, node ∈ members)
    (.protocol "shard references an unknown member")

namespace ClusterMetadata

/-- `ClusterMetadata.validate`; the types carry the checks of the request table. -/
def validate (metadata : ClusterMetadata) : Except Error Unit := do
  require (0 < metadata.dimension ∧ 0 < metadata.shardCount)
    (.protocol "invalid cluster metadata header")
  require (0 < metadata.replicationFactor ∧
      metadata.replicationFactor ≤ metadata.members.length)
    (.protocol "invalid cluster replication factor")
  require (0 < metadata.epoch) (.protocol "unsupported routing metadata")
  require ("" ∉ metadata.members) (.protocol "invalid cluster member")
  require ((∀ shard ∈ metadata.shardOrder, shard < metadata.shardCount) ∧
      ∀ shard ∈ List.range metadata.shardCount, shard ∈ metadata.shardOrder)
    (.protocol "cluster metadata must cover every shard")
  checkEach metadata.shardOrder fun shard =>
    (metadata.shards shard).validate metadata.members

/-- `DistributedCluster.route`: the low 64 bits of the identifier, modulo the shard count. -/
def route (metadata : ClusterMetadata) (pointId : Int) : Nat :=
  (pointId % 2 ^ 64).toNat % metadata.shardCount

/-- The order in which `json` gives the shards back: by the text of their keys. -/
def reloadOrder (shardCount : Nat) : List Nat :=
  (List.range shardCount).insertionSort (fun a b => toString a ≤ toString b)

/-- The metadata a coordinator goes on with after it has read the published file. -/
def reopened (metadata : ClusterMetadata) : ClusterMetadata :=
  { metadata with
    epoch := metadata.epoch + 1
    shardOrder := reloadOrder metadata.shardCount }

end ClusterMetadata

/-- The arguments of `DistributedCluster`. -/
structure Options where
  dimension : Nat
  shardCount : Nat
  replicationFactor : Nat
  nodeCount : Nat

/-- The names `n0`, `n1`, … of the nodes. -/
def Options.nodes (options : Options) : List String :=
  (List.range options.nodeCount).map fun index => "n" ++ toString index

/-- The first placement of a shard: consecutive nodes, starting at the shard's own number. -/
def Options.placement (options : Options) (shardId : Nat) : ShardPlacement :=
  let nodes := options.nodes.insertionSort (· ≤ ·)
  let replicas := (List.range options.replicationFactor).map fun offset =>
    nodes.getD ((shardId + offset) % nodes.length) ""
  ⟨1, 1, replicas.headD "", replicas, 0, 0⟩

/-- The metadata of a new cluster. -/
def Options.metadata (options : Options) : ClusterMetadata where
  dimension := options.dimension
  shardCount := options.shardCount
  replicationFactor := options.replicationFactor
  epoch := 1
  members := options.nodes
  shardOrder := List.range options.shardCount
  shards := options.placement
  requestTable := fun _ => none

/-- The changes the coordinator makes to its metadata. -/
inductive MetadataEdit where
  | rejoin
  | elect (shardId : Nat) (leader : String)
  | allocate (shardId : Nat)
  | recordPrepared (requestId : RequestId) (record : RequestRecord)
  | recordCommitted (requestId : RequestId) (record : RequestRecord)
  | addReplica (shardId : Nat) (node : String) (placementEpoch : Nat)

namespace ClusterMetadata

/-- Change one placement and count up the epoch. -/
def editShard (metadata : ClusterMetadata) (shardId : Nat)
    (change : ShardPlacement → ShardPlacement) : ClusterMetadata :=
  { metadata with
    epoch := metadata.epoch + 1
    shards := fun shard =>
      if shard = shardId then change (metadata.shards shard) else metadata.shards shard }

/-- Write one entry of the request table. -/
def record (metadata : ClusterMetadata) (requestId : RequestId) (record : RequestRecord) :
    ClusterMetadata :=
  { metadata with
    requestTable := fun request =>
      if request = requestId then some record else metadata.requestTable request }

/-- Make a change. -/
def edit (metadata : ClusterMetadata) : MetadataEdit → ClusterMetadata
  | .rejoin => { metadata with epoch := metadata.epoch + 1 }
  | .elect shardId leader => metadata.editShard shardId fun placement =>
      { placement with
        term := placement.term + 1
        placementEpoch := placement.placementEpoch + 1
        leader }
  | .allocate shardId => metadata.editShard shardId fun placement =>
      { placement with lastLogIndex := placement.lastLogIndex + 1 }
  | .recordPrepared requestId record =>
      { metadata with epoch := metadata.epoch + 1 }.record requestId record
  | .recordCommitted requestId record =>
      (metadata.editShard record.shardId fun placement =>
        { placement with committedIndex := max placement.committedIndex record.index }).record
        requestId record
  | .addReplica shardId node placementEpoch => metadata.editShard shardId fun placement =>
      { placement with replicas := placement.replicas ++ [node], placementEpoch }

end ClusterMetadata

/-! ## Valid metadata -/

/-- What the validation of a placement establishes. -/
structure ShardPlacement.Valid (placement : ShardPlacement) (members : List String) : Prop where
  term_pos : 0 < placement.term
  epoch_pos : 0 < placement.placementEpoch
  nodup : placement.replicas.Nodup
  leader_mem : placement.leader ∈ placement.replicas
  committed_le : placement.committedIndex ≤ placement.lastLogIndex
  members : ∀ node ∈ placement.replicas, node ∈ members

theorem ShardPlacement.validate_ok {placement : ShardPlacement} {members : List String} :
    placement.validate members = .ok () ↔ placement.Valid members := by
  simp only [validate, bind_ok, require_ok, exists_unit]
  constructor
  · rintro ⟨hterm, hepoch, hnodup, hleader, -, hcommitted, hmembers⟩
    exact ⟨hterm, hepoch, hnodup, hleader, hcommitted, hmembers⟩
  · rintro ⟨hterm, hepoch, hnodup, hleader, hcommitted, hmembers⟩
    have hpos := List.length_pos_of_mem hleader
    exact ⟨hterm, hepoch, hnodup, hleader, by unfold quorum; omega, hcommitted, hmembers⟩

namespace ClusterMetadata

/-- What the validation of the metadata establishes. -/
structure Valid (metadata : ClusterMetadata) : Prop where
  dimension_pos : 0 < metadata.dimension
  shardCount_pos : 0 < metadata.shardCount
  replication : 0 < metadata.replicationFactor ∧
    metadata.replicationFactor ≤ metadata.members.length
  epoch_pos : 0 < metadata.epoch
  named : "" ∉ metadata.members
  covers : ∀ shard, shard ∈ metadata.shardOrder ↔ shard < metadata.shardCount
  placed : ∀ shard, shard < metadata.shardCount → (metadata.shards shard).Valid metadata.members

theorem validate_ok {metadata : ClusterMetadata} :
    metadata.validate = .ok () ↔ metadata.Valid := by
  simp only [validate, bind_ok, require_ok, exists_unit, check_each_ok,
    ShardPlacement.validate_ok]
  constructor
  · rintro ⟨⟨hdimension, hcount⟩, hreplication, hepoch, hnamed, ⟨hbound, hcover⟩, hplaced⟩
    have hcovers : ∀ shard, shard ∈ metadata.shardOrder ↔ shard < metadata.shardCount :=
      fun shard => ⟨hbound shard, fun h => hcover shard (List.mem_range.2 h)⟩
    exact ⟨hdimension, hcount, hreplication, hepoch, hnamed, hcovers,
      fun shard h => hplaced shard ((hcovers shard).2 h)⟩
  · rintro ⟨hdimension, hcount, hreplication, hepoch, hnamed, hcovers, hplaced⟩
    exact ⟨⟨hdimension, hcount⟩, hreplication, hepoch, hnamed,
      ⟨fun shard h => (hcovers shard).1 h, fun shard h => (hcovers shard).2 (List.mem_range.1 h)⟩,
      fun shard h => hplaced shard ((hcovers shard).1 h)⟩

theorem valid_edit_shard {metadata : ClusterMetadata} {shardId : Nat}
    {change : ShardPlacement → ShardPlacement} (h : metadata.Valid)
    (hchange : (metadata.shards shardId).Valid metadata.members →
      (change (metadata.shards shardId)).Valid metadata.members) :
    (metadata.editShard shardId change).Valid := by
  refine ⟨h.dimension_pos, h.shardCount_pos, h.replication, Nat.succ_pos _, h.named, h.covers, ?_⟩
  intro shard hshard
  simp only [editShard]
  split
  · next heq =>
      subst heq
      exact hchange (h.placed shard hshard)
  · exact h.placed shard hshard

theorem valid_record {metadata : ClusterMetadata} {requestId : RequestId}
    {record : RequestRecord} (h : metadata.Valid) : (metadata.record requestId record).Valid :=
  ⟨h.dimension_pos, h.shardCount_pos, h.replication, h.epoch_pos, h.named, h.covers, h.placed⟩

theorem valid_epoch {metadata : ClusterMetadata} (h : metadata.Valid) :
    { metadata with epoch := metadata.epoch + 1 }.Valid :=
  ⟨h.dimension_pos, h.shardCount_pos, h.replication, Nat.succ_pos _, h.named, h.covers, h.placed⟩

/-- When a change of valid metadata leaves it valid: a leader is a replica, a recorded commit
lies within the log of its shard, and a new replica is a member that was none before. -/
def Allows (metadata : ClusterMetadata) : MetadataEdit → Prop
  | .rejoin => True
  | .elect shardId leader => leader ∈ (metadata.shards shardId).replicas
  | .allocate _ => True
  | .recordPrepared _ _ => True
  | .recordCommitted _ record => record.index ≤ (metadata.shards record.shardId).lastLogIndex
  | .addReplica shardId node placementEpoch =>
      node ∉ (metadata.shards shardId).replicas ∧ node ∈ metadata.members ∧ 0 < placementEpoch

theorem valid_edit {metadata : ClusterMetadata} {edit : MetadataEdit} (h : metadata.Valid)
    (hallows : metadata.Allows edit) : (metadata.edit edit).Valid := by
  cases edit with
  | rejoin => exact valid_epoch h
  | elect shardId leader =>
      simp only [edit]
      refine valid_edit_shard h fun hplaced => ?_
      exact ⟨Nat.succ_pos _, Nat.succ_pos _, hplaced.nodup, hallows, hplaced.committed_le,
        hplaced.members⟩
  | allocate shardId =>
      simp only [edit]
      refine valid_edit_shard h fun hplaced => ?_
      exact ⟨hplaced.term_pos, hplaced.epoch_pos, hplaced.nodup, hplaced.leader_mem,
        hplaced.committed_le.trans (Nat.le_succ _), hplaced.members⟩
  | recordPrepared requestId record => exact valid_record (valid_epoch h)
  | recordCommitted requestId record =>
      refine valid_record (valid_edit_shard h fun hplaced => ?_)
      exact ⟨hplaced.term_pos, hplaced.epoch_pos, hplaced.nodup, hplaced.leader_mem,
        max_le hplaced.committed_le hallows, hplaced.members⟩
  | addReplica shardId node placementEpoch =>
      obtain ⟨hnew, hmember, hepoch⟩ := hallows
      simp only [edit]
      refine valid_edit_shard h fun hplaced => ?_
      refine ⟨hplaced.term_pos, hepoch, ?_, List.mem_append_left _ hplaced.leader_mem,
        hplaced.committed_le, ?_⟩
      · refine List.nodup_append.2 ⟨hplaced.nodup, List.nodup_singleton node, ?_⟩
        intro a ha b hb heq
        rw [List.mem_singleton.1 hb] at heq
        exact hnew (heq ▸ ha)
      · intro other hother
        rcases List.mem_append.1 hother with hother | hother
        · exact hplaced.members other hother
        · exact List.mem_singleton.1 hother ▸ hmember

end ClusterMetadata

end Akasha.Distributed

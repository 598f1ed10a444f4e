import Akasha.Distributed.Cluster
import Akasha.Distributed.ReplicaRun
import Mathlib.Logic.Relation

/-!
# What a cluster may do

`Act` lists the single actions of a coordinator and its nodes: a call of one replica, a change of
a node, a publication, a round of commits. Each carries what the coordinator has established when
it takes the action, in terms of its metadata and of the history. `Step` adds the loss and the
start of a coordinator. The module `Refinement` proves that every run of the programs is a
sequence of steps, whatever faults fall into it; invariants are then proved one step at a time.
-/

namespace Akasha.Distributed

open Lib Lib.Exec Relation

/-! ## Actions -/

namespace World

/-- Replace what one node holds of one shard. -/
def setReplica (world : World) (name : String) (shardId : Nat) (replica : Replica) : World :=
  world.setNode name ((world.nodes name).setReplica shardId replica)

/-- Change the metadata in memory and in the file. -/
def publishing (world : World) (metadata : ClusterMetadata) : World :=
  { world with metadata, published := some metadata }

end World

section

variable [FloatRepr]

/-- One call of a replica, with the dimension the coordinator gave it. -/
def World.callReplica (world : World) (name : String) (shardId : Nat) (writes : Option Nat)
    (call : ReplicaCall) : World :=
  world.setReplica name shardId
    ((world.replica name shardId).call shardId world.metadata.dimension writes call)

/-- A commit arrives at a replica. -/
def World.deliverCommit (world : World) (name : String) (entry : ReplicatedEntry)
    (writes : Option Nat) : World :=
  (world.note ((commitRequest entry).note (world.nodes name))).callReplica name entry.shardId
    writes (.commit entry)

/-- An entry that was read from a replica and is sent on. -/
def Relayed (world : World) (entry : ReplicatedEntry) : Prop :=
  ∃ old : ReplicatedEntry, (entry.shardId, old) ∈ world.history.learned ∧
    old.index = entry.index ∧ old.requestId = entry.requestId ∧ old.mutation = entry.mutation

/-- An entry for an index that was allocated for it. -/
def Allocated (world : World) (entry : ReplicatedEntry) : Prop :=
  ∃ requestId : RequestId, entry.requestId = requestId ∧
    world.history.owners entry.shardId entry.index = some (requestId, entry.mutation)

/-- The term and epoch a replica may be configured with: those of the placement, or, for a node
about to become a replica, the next epoch. -/
def Configures (world : World) (name : String) (shardId term placementEpoch : Nat) : Prop :=
  let placement := world.metadata.shards shardId
  term = placement.term ∧
    (name ∈ placement.replicas ∧ placementEpoch = placement.placementEpoch ∨
      name ∉ placement.replicas ∧ placementEpoch = placement.placementEpoch + 1)

/-- The calls a coordinator makes outside a commit round. -/
inductive Calls (world : World) (name : String) (shardId : Nat) : ReplicaCall → Prop
  | configure {term placementEpoch : Nat}
      (h : Configures world name shardId term placementEpoch) :
      Calls world name shardId (.configure term placementEpoch)
  | prepare {entry : ReplicatedEntry} (hshard : entry.shardId = shardId)
      (hvalid : entry.validate = .ok ()) (h : Allocated world entry ∨ Relayed world entry) :
      Calls world name shardId (.prepare entry)
  | reopen (h : (world.replica name shardId).shard = none) : Calls world name shardId .reopen

/-- The changes of the metadata outside a commit round, with what the history notes of them. -/
inductive Edits (world : World) : MetadataEdit → (History → History) → Prop
  | rejoin : Edits world .rejoin fun history => history
  | elect {shardId : Nat} {leader : String}
      (h : leader ∈ (world.metadata.shards shardId).replicas) :
      Edits world (.elect shardId leader) fun history => history
  | allocate {shardId : Nat} {requestId : RequestId} {mutation : Json} {pointId : Int}
      (hwritten : mutation ∈ world.history.written) (hid : mutationId mutation = .ok pointId)
      (hroute : world.metadata.route pointId = shardId) :
      Edits world (.allocate shardId) fun history => history.own shardId
        ((world.metadata.shards shardId).lastLogIndex + 1) requestId mutation
  | recordPrepared {requestId : RequestId} {mutation : Json} {shardId term index : Nat}
      (hnew : world.metadata.requestTable requestId = none)
      (howner : world.history.owners shardId index = some (requestId, mutation)) :
      Edits world (.recordPrepared requestId
        ⟨shardId, term, index, checksumOf mutation, .prepared⟩) fun history => history
  | addReplica {shardId : Nat} {name : String}
      (hnew : name ∉ (world.metadata.shards shardId).replicas)
      (hmember : name ∈ world.metadata.members)
      (hexported : ∃ index, (shardId, index) ∈ world.history.exported) :
      Edits world (.addReplica shardId name
        ((world.metadata.shards shardId).placementEpoch + 1)) fun history => history

/-! ## Commit rounds -/

/-- One action of a commit round. -/
inductive Send (entry : ReplicatedEntry) : World → World → Prop
  | faults (world : World) (faults : List Fault) : Send entry world { world with faults }
  | stop (world : World) (name : String) :
      Send entry world (world.setNode name (world.nodes name).stop)
  | deliver (world : World) (name : String) (writes : Option Nat) :
      Send entry world (world.deliverCommit name entry writes)

/-- The commits of a round. -/
abbrev Sends (entry : ReplicatedEntry) : World → World → Prop :=
  ReflTransGen (Send entry)

/-- The write found its request in the table just now. -/
def Retried (world : World) (requestId : RequestId) (entry : ReplicatedEntry)
    (record : RequestRecord) : Prop :=
  ∃ retry ∈ world.history.retries, retry.requestId = requestId ∧
    retry.mutation = entry.mutation ∧ retry.shardId = entry.shardId ∧ retry.record = record ∧
    retry.replicas = (world.metadata.shards entry.shardId).replicas.map
      (world.replica · entry.shardId)

/-- The entry whose commits are about to be sent: its request is in the table with this index
and checksum, and it is either the last index allocated or a retry. -/
structure Round (world : World) (requestId : RequestId) (entry : ReplicatedEntry) : Prop where
  request : entry.requestId = requestId
  written : entry.mutation ∈ world.history.written
  checksum : entry.mutationChecksum = checksumOf entry.mutation
  recorded : ∃ record, world.metadata.requestTable requestId = some record ∧
    record.index = entry.index ∧ record.checksum = entry.mutationChecksum ∧
    (record.shardId = entry.shardId ∧
        entry.index = (world.metadata.shards entry.shardId).lastLogIndex ∧
        Allocated world entry ∨
      Retried world requestId entry record)

/-- The change of the metadata that ends a successful round. -/
def committing (requestId : RequestId) (entry : ReplicatedEntry) : MetadataEdit :=
  .recordCommitted requestId
    ⟨entry.shardId, entry.term, entry.index, entry.mutationChecksum, .committed⟩

/-- How a round ends: without a quorum, with a publication, or with metadata that the validation
refuses. -/
inductive Concludes (requestId : RequestId) (entry : ReplicatedEntry) : World → World → Prop
  | failed (world : World) : Concludes requestId entry world world
  | published (world : World)
      (hvalid : (world.metadata.edit (committing requestId entry)).validate = .ok ()) :
      Concludes requestId entry world
        ((world.publishing (world.metadata.edit (committing requestId entry))).note
          (·.acknowledge ⟨entry.shardId, entry.term, entry.index, requestId⟩ entry.mutation))
  | refused (world : World)
      (hinvalid : (world.metadata.edit (committing requestId entry)).validate ≠ .ok ()) :
      Concludes requestId entry world
        { world with metadata := world.metadata.edit (committing requestId entry) }

/-! ## Steps -/

/-- The retry that a write notes. -/
def World.retryOf (world : World) (requestId : RequestId) (mutation : Json) (shardId : Nat)
    (record : RequestRecord) : Retry :=
  ⟨requestId, mutation, shardId, record, world.history.owners record.shardId record.index,
    (world.metadata.shards shardId).replicas.map (world.replica · shardId)⟩

/-- A retry is noted. -/
def World.noteRetry (world : World) (retry : Retry) : World :=
  world.note fun history => { history with retries := retry :: history.retries }

/-- The write found its request in the table, with its own checksum. -/
structure Found (world : World) (requestId : RequestId) (mutation : Json) (shardId : Nat)
    (record : RequestRecord) : Prop where
  written : mutation ∈ world.history.written
  recorded : world.metadata.requestTable requestId = some record
  checksum : record.checksum = checksumOf mutation
  routed : ∃ pointId, mutationId mutation = .ok pointId ∧
    world.metadata.route pointId = shardId

/-- One action of a coordinator and its nodes. -/
inductive Act : World → World → Prop
  | faults (world : World) (faults : List Fault) : Act world { world with faults }
  | shutdown (world : World) :
      Act world { world with closed := true, nodes := fun name => (world.nodes name).stop }
  | stop (world : World) (name : String) :
      Act world (world.setNode name (world.nodes name).stop)
  | start (world : World) (name : String) :
      Act world (world.setNode name (world.nodes name).start)
  | partition (world : World) (name : String) (enabled : Bool) :
      Act world (world.setNode name { world.nodes name with partitioned := enabled })
  | call (world : World) (name : String) (shardId : Nat) (writes : Option Nat)
      {call : ReplicaCall} (h : Calls world name shardId call) :
      Act world (world.callReplica name shardId writes call)
  | relay (world : World) (name : String) (writes : Option Nat) {entry : ReplicatedEntry}
      (hvalid : entry.validate = .ok ()) (h : Relayed world entry) :
      Act world (world.deliverCommit name entry writes)
  | install (world : World) (name : String) (shardId : Nat) (writes : Option Nat)
      (rows : List (Int64 × Point)) {index : Nat}
      (hexported : (shardId, index) ∈ world.history.exported)
      (hnew : name ∉ (world.metadata.shards shardId).replicas) :
      Act world (world.setReplica name shardId ((world.replica name shardId).method writes
        (installSnapshot rows index (world.metadata.shards shardId).term
          ((world.metadata.shards shardId).placementEpoch + 1))))
  | learn (world : World) (name : String) (shardId index : Nat) :
      Act world (world.note ((entriesRequest shardId index).note (world.nodes name)))
  | exportRows (world : World) (name : String) (shardId : Nat) :
      Act world (world.note ((exportRequest shardId).note (world.nodes name)))
  | serve (world : World) (name : String) (shardId : Nat)
      (hname : name ∈ (world.metadata.shards shardId).ordered)
      (h : ∀ shard ∈ (world.replica name shardId).shard,
        (world.metadata.shards shardId).committedIndex ≤ shard.state.appliedIndex) :
      Act world (world.note (noteServed shardId (world.nodes name)))
  | submit (world : World) (mutation : Json) :
      Act world (world.submitted mutation)
  | retry (world : World) {requestId : RequestId} {mutation : Json} {shardId : Nat}
      {record : RequestRecord} (h : Found world requestId mutation shardId record) :
      Act world (world.noteRetry (world.retryOf requestId mutation shardId record))
  | answer (world : World) {requestId : RequestId} {mutation : Json} {shardId : Nat}
      {record : RequestRecord} (h : Found world requestId mutation shardId record)
      (hstatus : record.status = .committed) :
      Act world ((world.noteRetry (world.retryOf requestId mutation shardId record)).note
        (·.acknowledge ⟨shardId, record.term, record.index, requestId⟩ mutation))
  | publish (world : World) {edit : MetadataEdit} {note : History → History}
      (h : Edits world edit note) (hvalid : (world.metadata.edit edit).validate = .ok ()) :
      Act world ((world.publishing (world.metadata.edit edit)).note note)
  | refuse (world : World) {edit : MetadataEdit} {note : History → History}
      (h : Edits world edit note) (hinvalid : (world.metadata.edit edit).validate ≠ .ok ()) :
      Act world { world with metadata := world.metadata.edit edit }
  | round (world : World) {sent concluded : World} {requestId : RequestId}
      {entry : ReplicatedEntry} (h : Round world requestId entry)
      (hsends : Sends entry world sent) (hend : Concludes requestId entry sent concluded) :
      Act world concluded

/-- A sequence of actions. -/
abbrev Acts : World → World → Prop :=
  ReflTransGen Act

/-- One step of the cluster: an action while there is a coordinator, the loss of it, or a part
of the start of a new one. -/
inductive Step : World → World → Prop
  | act {world after : World} (hup : world.up = true) (h : Act world after) : Step world after
  | faults (world : World) (faults : List Fault) : Step world { world with faults }
  | crash (world : World) : Step world world.crashed
  | reset (world : World) (options : Options) :
      Step world { world with
        up := false
        closed := false
        nodes := fun name =>
          if name ∈ options.nodes then (world.nodes name).start else (world.nodes name).stop }
  | boot (world : World) {options : Options} {metadata : ClusterMetadata}
      (h : startingMetadata options world.published = .ok metadata)
      (hvalid : metadata.validate = .ok ()) :
      Step world { world with metadata, published := some metadata, up := true }

/-- A sequence of steps. -/
abbrev Reaches : World → World → Prop :=
  ReflTransGen Step

theorem sends_up {entry : ReplicatedEntry} {world after : World} (h : Sends entry world after) :
    after.up = world.up := by
  induction h with
  | refl => rfl
  | tail _ hsend ih =>
      cases hsend <;> exact ih

theorem act_up {world after : World} (h : Act world after) : after.up = world.up := by
  cases h with
  | round hround hsends hend =>
      have hsent := sends_up hsends
      cases hend <;> exact hsent
  | _ => rfl

theorem reaches_of_acts {world after : World} (hup : world.up = true) (h : Acts world after) :
    Reaches world after ∧ after.up = true := by
  induction h with
  | refl => exact ⟨.refl, hup⟩
  | tail _ hact ih => exact ⟨ih.1.tail (.act ih.2 hact), (act_up hact).trans ih.2⟩

end

end Akasha.Distributed

import Akasha.Distributed.Cluster

/-!
# Measures that no call lowers

A steady measure depends on nothing but the metadata and what was exported, and no edit of the
metadata lowers it. Then neither a read nor a write, an election or a catch-up does.
-/

namespace Akasha.Distributed

open Lib Lib.Exec

/-- The measure sees the metadata and what was exported, and does not go down in an edit. -/
structure Steady {γ : Type} [Preorder γ] (f : World → γ) : Prop where
  same (world after : World) (hmetadata : after.metadata = world.metadata)
    (hexported : after.history.exported = world.history.exported) : f world ≤ f after
  edit (world : World) (edit : MetadataEdit) :
    f world ≤ f { world with metadata := world.metadata.edit edit }

variable {γ : Type} [Preorder γ] {f : World → γ}

theorem ascends_attempt {α : Type} {x : ClusterM α} (hx : Ascends f x) :
    Ascends f (attempt x) := by
  refine ascends_catching (ascends_map _ hx) fun e => ?_
  split
  · exact ascends_pure _
  · exact ascends_pure _
  · exact ascends_pure _
  · exact ascends_raise _

theorem ascends_ensure_open : Ascends f ensureOpen :=
  ascends_bind ascends_read fun _ => ascends_ensure _ _

variable (hf : Steady f)

include hf

theorem ascends_next_fault : Ascends f nextFault := by
  intro world
  unfold nextFault
  split
  · exact le_rfl
  · exact hf.same _ _ rfl rfl

theorem ascends_rpc {α : Type} {name : String} {request : Request α}
    (hnote : ∀ node history, (request.note node history).exported = history.exported) :
    Ascends f (rpc name request) := by
  have hdeliver : ∀ writes, Ascends f (deliver name writes request) :=
    fun writes world => hf.same _ _ rfl (hnote _ _)
  exact ascends_bind (ascends_next_fault hf) fun _ => ascends_bind (ascends_ensure _ _) fun _ =>
    ascends_bind ascends_read fun _ => ascends_bind (ascends_ensure _ _) fun _ =>
      ascends_bind (ascends_ensure _ _) fun _ => ascends_bind (ascends_ensure _ _) fun _ =>
        ascends_bind (hdeliver _) fun _ => ascends_bind (ascends_ensure _ _) fun _ =>
          ascends_bind (ascends_ensure _ _) fun _ => ascends_lift _

theorem ascends_serve {α : Type} {name : String} {shardId : Nat}
    {answer : ShardDisk → ReplicaShard → Except Error α} :
    Ascends f (rpc name (readRequest shardId answer (noteServed shardId))) := by
  refine ascends_rpc hf fun node history => ?_
  simp only [readRequest, noteServed]
  split <;> rfl

theorem ascends_publish {edit : MetadataEdit} {note : History → History}
    (hnote : ∀ history, (note history).exported = history.exported) :
    Ascends f (publish edit note) :=
  ascends_bind (ascends_next_fault hf) fun _ => ascends_bind (ascends_ensure _ _) fun _ =>
    ascends_bind (ascends_update fun world => hf.edit world edit) fun _ =>
      ascends_bind ascends_read fun _ => ascends_bind (ascends_lift _) fun _ =>
        ascends_bind (ascends_update fun _ => hf.same _ _ rfl (hnote _)) fun _ =>
          ascends_ensure _ _

theorem ascends_status (name : String) (shardId : Nat) : Ascends f (status name shardId) :=
  ascends_rpc hf fun _ _ => rfl

theorem ascends_query_replica (shardId : Nat) : Ascends f (queryReplica shardId) := by
  have hfirst : ∀ required names, Ascends f (firstCaughtUp shardId required names) := by
    intro required names
    induction names with
    | nil => exact ascends_raise _
    | cons name names ih =>
        exact ascends_bind (ascends_attempt (ascends_status hf name shardId)) fun _ =>
          ascends_ite (ascends_pure _) ih
  exact ascends_bind ascends_read fun _ => hfirst _ _

theorem ascends_get (pointId : Int) : Ascends f (getPoint pointId) :=
  ascends_bind ascends_ensure_open fun _ => ascends_bind ascends_read fun _ =>
    ascends_bind (ascends_query_replica hf _) fun _ => ascends_serve hf

theorem ascends_search {ρ : Type} (answer : PointMap → Except String ρ) :
    Ascends f (search answer) := by
  have hturn : ∀ shardId required name, Ascends f (queryCaughtUp shardId required answer name) :=
    fun shardId required name => ascends_bind (ascends_status hf name shardId) fun _ =>
      ascends_ite (ascends_map _ (ascends_serve hf)) (ascends_pure _)
  have hfirst : ∀ shardId required names,
      Ascends f (firstAnswer shardId required answer names) := by
    intro shardId required names
    induction names with
    | nil => exact ascends_raise _
    | cons name names ih =>
        refine ascends_bind (ascends_attempt (hturn shardId required name)) fun reply => ?_
        split
        · exact ascends_pure _
        · exact ih
  refine ascends_bind ascends_ensure_open fun _ => ascends_bind ascends_read fun _ =>
    ascends_bind (ascends_collect (fun shardId => ascends_map _ ?_) _) fun _ =>
      ascends_bind ascends_read fun _ => ascends_bind (ascends_ensure _ _) fun _ => ascends_pure _
  exact ascends_bind ascends_read fun _ => hfirst _ _ _

variable [FloatRepr]

theorem ascends_configure_replica (shardId : Nat) (name : String) :
    Ascends f (configureReplica shardId name) :=
  ascends_bind ascends_read fun _ => ascends_bind (ascends_rpc hf fun _ _ => rfl) fun _ =>
    ascends_pure _

theorem ascends_send_prepare (entry : ReplicatedEntry) (name : String) :
    Ascends f (sendPrepare entry name) :=
  ascends_bind (ascends_lift _) fun _ => ascends_rpc hf fun _ _ => rfl

theorem ascends_send_commit (entry : ReplicatedEntry) (name : String) :
    Ascends f (sendCommit entry name) :=
  ascends_bind (ascends_lift _) fun _ => ascends_rpc hf fun _ _ => rfl

theorem ascends_elect_leader (shardId : Nat) : Ascends f (electLeader shardId) := by
  have hcandidates : ∀ replicas, Ascends f (candidates shardId replicas) :=
    fun replicas => ascends_collect (fun name =>
      ascends_bind (ascends_attempt (ascends_status hf name shardId)) fun _ => ascends_pure _) _
  exact ascends_bind ascends_read fun _ => ascends_bind (hcandidates _) fun _ =>
    ascends_bind (ascends_ensure _ _) fun _ => ascends_bind (ascends_publish hf fun _ => rfl) fun _ =>
      ascends_for_each (ascends_configure_replica hf shardId) _

theorem ascends_ensure_leader (shardId : Nat) : Ascends f (ensureLeader shardId) :=
  ascends_bind ascends_read fun _ => ascends_bind (ascends_attempt (ascends_status hf _ _)) fun _ =>
    ascends_ite (ascends_pure _) (ascends_elect_leader hf shardId)

theorem ascends_commit_prepared (requestId : RequestId) (entry : ReplicatedEntry)
    (checksum : Nat) : Ascends f (commitPrepared requestId entry checksum) := by
  have hcommit : ∀ replicas, Ascends f (commitOn entry replicas) :=
    fun replicas => ascends_collect (fun name =>
      ascends_bind (ascends_attempt (ascends_send_commit hf entry name)) fun _ =>
        ascends_pure _) _
  exact ascends_bind ascends_read fun _ => ascends_bind (hcommit _) fun _ =>
    ascends_bind (ascends_ensure _ _) fun _ => ascends_bind (ascends_publish hf fun _ => rfl) fun _ =>
      ascends_pure _

theorem ascends_write_again (requestId : RequestId) (mutation : Json) (shardId : Nat)
    (record : RequestRecord) : Ascends f (writeAgain requestId mutation shardId record) := by
  have hnote : ∀ world (change : History → History),
      (∀ history, (change history).exported = history.exported) →
        f world ≤ f (world.note change) := fun world change h => hf.same _ _ rfl (h _)
  refine ascends_bind (ascends_ensure _ _) fun _ => ?_
  split
  · exact ascends_bind (ascends_update fun _ => hnote _ _ fun _ => rfl) fun _ =>
      ascends_bind (ascends_update fun _ => hnote _ _ fun _ => rfl) fun _ => ascends_pure _
  · exact ascends_bind (ascends_ensure_leader hf shardId) fun _ =>
      ascends_bind (ascends_update fun _ => hnote _ _ fun _ => rfl) fun _ =>
        ascends_bind ascends_read fun _ => ascends_commit_prepared hf _ _ _

theorem ascends_prepare_on (entry : ReplicatedEntry) (replicas : List String) :
    Ascends f (prepareOn entry replicas) :=
  ascends_collect (fun name =>
    ascends_bind (ascends_attempt (ascends_send_prepare hf entry name)) fun _ => ascends_pure _) _

theorem ascends_prepare_next (requestId : RequestId) (mutation : Json) (shardId : Nat) :
    Ascends f (prepareNext requestId mutation shardId) :=
  ascends_bind ascends_read fun _ => ascends_bind (ascends_publish hf fun _ => rfl) fun _ =>
    ascends_bind ascends_read fun _ => ascends_bind (ascends_prepare_on hf _ _) fun _ =>
      ascends_pure _

/-- What a fresh write does with the nodes that prepared it. -/
theorem ascends_replicate {requestId : RequestId} {shardId : Nat}
    {leaderFailed : Nat → ClusterM CommitResult}
    (hfailed : ∀ shard, Ascends f (leaderFailed shard)) (placed : ReplicatedEntry × List String) :
    Ascends f (do
      let world ← read
      if (world.metadata.shards shardId).leader ∈ placed.2 then
        commitFresh requestId placed.1 placed.2
      else leaderFailed shardId : ClusterM CommitResult) := by
  refine ascends_bind ascends_read fun _ => ascends_ite ?_ (hfailed shardId)
  exact ascends_bind ascends_read fun _ => ascends_bind (ascends_ensure _ _) fun _ =>
    ascends_bind (ascends_publish hf fun _ => rfl) fun _ => ascends_commit_prepared hf _ _ _

theorem ascends_write_retrying (requestId : RequestId) (mutation : Json) (retries : Nat) :
    Ascends f (writeRetrying requestId mutation retries) := by
  have honce : ∀ {leaderFailed : Nat → ClusterM CommitResult},
      (∀ shardId, Ascends f (leaderFailed shardId)) →
        Ascends f (writeOnce requestId mutation leaderFailed) := by
    intro leaderFailed hfailed
    refine ascends_bind ascends_ensure_open fun _ => ascends_bind (ascends_lift _) fun _ =>
      ascends_bind ascends_read fun _ => ?_
    split
    · exact ascends_write_again hf _ _ _ _
    · exact ascends_bind (ascends_ensure_leader hf _) fun _ =>
        ascends_bind (ascends_prepare_next hf _ _ _) (ascends_replicate hf hfailed)
  induction retries with
  | zero => exact honce fun _ => ascends_raise _
  | succ retries ih =>
      exact honce fun shardId => ascends_bind (ascends_elect_leader hf shardId) fun _ => ih

theorem ascends_write (requestId : RequestId) (mutation : Json) :
    Ascends f (write requestId mutation) :=
  ascends_bind ascends_ensure_open fun _ => ascends_bind (ascends_lift _) fun _ =>
    ascends_bind (ascends_lift _) fun _ =>
      ascends_bind (ascends_update fun _ => hf.same _ _ rfl rfl) fun _ =>
        ascends_write_retrying hf _ _ 2

theorem ascends_catch_up (name : String) (shardId : Nat) : Ascends f (catchUp name shardId) := by
  have hrelay : ∀ term placementEpoch old,
      Ascends f (relay shardId term placementEpoch name old) := fun term placementEpoch old =>
    ascends_bind (ascends_lift _) fun _ => ascends_bind (ascends_send_prepare hf _ _) fun _ =>
      ascends_bind (ascends_send_commit hf _ _) fun _ => ascends_pure _
  exact ascends_bind ascends_read fun _ => ascends_bind (ascends_ensure _ _) fun _ =>
    ascends_bind (ascends_ensure _ _) fun _ =>
      ascends_bind (ascends_configure_replica hf _ _) fun _ =>
        ascends_bind (ascends_status hf _ _) fun _ =>
          ascends_bind (ascends_query_replica hf _) fun _ =>
            ascends_bind (ascends_rpc hf fun _ _ => rfl) fun _ => ascends_for_each (hrelay _ _) _

theorem ascends_restart_node (name : String) : Ascends f (restartNode name) := by
  have hrejoin : ∀ shardId, Ascends f (rejoinShard name shardId) := fun shardId =>
    ascends_bind ascends_read fun _ => ascends_ite (ascends_bind (ascends_configure_replica hf _ _)
      fun _ => ascends_catch_up hf _ _) (ascends_pure _)
  exact ascends_bind (ascends_bind ascends_read fun _ => ascends_ensure _ _) fun _ =>
    ascends_bind ascends_read fun _ => ascends_bind (ascends_ensure _ _) fun _ =>
      ascends_bind (ascends_update fun _ => hf.same _ _ rfl rfl) fun _ =>
        ascends_bind (ascends_publish hf fun _ => rfl) fun _ => ascends_for_each hrejoin _

end Akasha.Distributed

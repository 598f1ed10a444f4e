import Akasha.Distributed.Metadata
import Akasha.Distributed.Replica

/-!
# The cluster

`World` is the whole system: the coordinator's metadata in memory and in its file, every node
with its shard directories, the faults still to come, and a history that the programs write and
never read. The methods of `DistributedCluster` are programs over it. Each RPC and each
publication of the metadata takes the next fault: a message may be lost on the way out or on the
way back, the replica process may die after some of its file writes, and the coordinator may die
before or after. The replica processes end with their coordinator.
-/

namespace Akasha.Distributed

open Lib Lib.Exec

/-! ## Nodes -/

/-- A replica process and its directories, one for each shard. -/
structure Node where
  alive : Bool
  partitioned : Bool
  replicas : Nat → Replica

namespace Node

/-- A node that was never started. -/
def initial : Node := ⟨false, false, fun _ => .initial⟩

/-- Replace what a node holds of one shard. -/
def setReplica (node : Node) (shardId : Nat) (replica : Replica) : Node :=
  { node with replicas := fun shard => if shard = shardId then replica else node.replicas shard }

/-- The process ends; the files stay. -/
def stop (node : Node) : Node :=
  ⟨false, false, fun shard => ⟨(node.replicas shard).disk, none⟩⟩

/-- `ReplicaProcess.start`: a process with no shard open. -/
def start (node : Node) : Node :=
  ⟨true, false, fun shard => ⟨(node.replicas shard).disk, none⟩⟩

end Node

/-! ## Faults and history -/

/-- What may go wrong at an RPC or a publication. `replicaDies` gives the number of file writes
the replica still makes. -/
inductive Fault where
  | none
  | requestLost
  | responseLost
  | replicaDies (writes : Nat)
  | crashBefore
  | crashAfter
deriving DecidableEq

/-- The file writes a replica may still make. -/
def Fault.writes : Fault → Option Nat
  | .replicaDies writes => some writes
  | _ => Option.none

/-- `CommitResult`. -/
structure CommitResult where
  shardId : Nat
  term : Nat
  index : Nat
  requestId : RequestId
deriving DecidableEq

/-- A commit that reached a replica: the replica before it, the entry, and what had been
acknowledged by then. -/
structure Delivery where
  replica : Replica
  entry : ReplicatedEntry
  acknowledged : List (CommitResult × Json)

/-- A write whose request was found in the table with the same checksum: where the write routes,
the record found, the request and mutation the recorded index was given to, and the replicas of
the shard at that moment. -/
structure Retry where
  requestId : RequestId
  mutation : Json
  shardId : Nat
  record : RequestRecord
  original : Option (RequestId × Json)
  replicas : List Replica

/-- A read that a replica served. -/
structure Served where
  shardId : Nat
  disk : ShardDisk
  acknowledged : List (CommitResult × Json)

/-- What happened so far. `owners` gives the request and mutation an index was allocated for,
`learned` the entries and `exported` the applied indexes read from replicas, and `acknowledged`
the results, each as soon as its commit is published. -/
structure History where
  owners : Nat → Nat → Option (RequestId × Json)
  written : List Json
  learned : List (Nat × ReplicatedEntry)
  exported : List (Nat × Nat)
  acknowledged : List (CommitResult × Json)
  deliveries : List Delivery
  retries : List Retry
  served : List Served

/-- Nothing happened. -/
def History.empty : History := ⟨fun _ _ => none, [], [], [], [], [], [], []⟩

/-- An index was allocated. -/
def History.own (history : History) (shardId index : Nat) (requestId : RequestId)
    (mutation : Json) : History :=
  { history with
    owners := fun shard position =>
      if shard = shardId ∧ position = index then some (requestId, mutation)
      else history.owners shard position }

/-- A result was published. -/
def History.acknowledge (history : History) (result : CommitResult) (mutation : Json) : History :=
  { history with acknowledged := (result, mutation) :: history.acknowledged }

/-! ## The system -/

/-- The coordinator and the nodes. `up` says whether there is a coordinator object, and `closed`
is its `_closed`. -/
structure World where
  metadata : ClusterMetadata
  published : Option ClusterMetadata
  up : Bool
  closed : Bool
  nodes : String → Node
  faults : List Fault
  history : History

namespace World

/-- Nothing was started. -/
def initial : World where
  metadata := ⟨0, 0, 0, 0, [], [], fun _ => ⟨0, 0, "", [], 0, 0⟩, fun _ => none⟩
  published := none
  up := false
  closed := false
  nodes := fun _ => .initial
  faults := []
  history := .empty

/-- What a node holds of a shard. -/
def replica (world : World) (name : String) (shardId : Nat) : Replica :=
  (world.nodes name).replicas shardId

/-- Replace one node. -/
def setNode (world : World) (name : String) (node : Node) : World :=
  { world with nodes := fun other => if other = name then node else world.nodes other }

/-- Write to the history. -/
def note (world : World) (change : History → History) : World :=
  { world with history := change world.history }

/-- A mutation is noted as written. -/
abbrev submitted (world : World) (mutation : Json) : World :=
  world.note fun history => { history with written := mutation :: history.written }

/-- The coordinator is gone, and with it its processes. -/
def crashed (world : World) : World :=
  { world with up := false, nodes := fun name => (world.nodes name).stop }

end World

/-- A method of `DistributedCluster`. -/
abbrev ClusterM := Exec World Error

/-- Take the next fault; there is none once the list is used up. -/
def nextFault : ClusterM Fault := fun world =>
  match world.faults with
  | [] => (.ok .none, world)
  | fault :: faults => (.ok fault, { world with faults })

/-! ## Remote procedure calls -/

/-- A request to a replica process: whether a partition lets it through, what is noted when it
arrives, and what the process does. -/
structure Request (α : Type) where
  exempt : Bool
  note : Node → History → History
  handle : Option Nat → Exec Node Error α

/-- The error a reply carries: every type the client does not know becomes `ProtocolError`. -/
def wireError : Error → Error
  | .staleEpoch message => .staleEpoch message
  | .unavailable message => .unavailable message
  | .crash => .unavailable "replica RPC failed"
  | .protocol message => .protocol message
  | .kernel message => .protocol message
  | .runtime message => .protocol message
  | .quorumUnavailable message => .protocol message
  | .clusterClosed => .protocol "distributed cluster is closed"

/-- What a handler leaves of its node: a dead process if it died in it. -/
def Node.afterRequest {α : Type} : Except Error α × Node → Node
  | (.error .crash, node) => node.stop
  | (_, node) => node

/-- The request arrives and is handled. -/
def deliver {α : Type} (name : String) (writes : Option Nat) (request : Request α) :
    ClusterM (Except Error α) := fun world =>
  let result := request.handle writes (world.nodes name)
  (.ok (result.1.mapError wireError),
    (world.note (request.note (world.nodes name))).setNode name (.afterRequest result))

/-- `ReplicaProcess.rpc`, and what `replica_server_main` does with it. -/
def rpc {α : Type} (name : String) (request : Request α) : ClusterM α := do
  let fault ← nextFault
  ensure (fault ≠ .crashBefore) .crash
  let world ← read
  ensure (world.nodes name).alive (.unavailable "replica is unavailable")
  ensure (fault ≠ .requestLost) (.unavailable "replica RPC failed")
  ensure (request.exempt ∨ ¬ (world.nodes name).partitioned)
    (.unavailable "replica is network partitioned")
  let reply ← deliver name fault.writes request
  ensure (fault ≠ .crashAfter) .crash
  ensure (fault ≠ .responseLost) (.unavailable "replica RPC failed")
  lift reply

/-- A method of an open `ReplicaShard`. -/
def Node.method {α : Type} (shardId : Nat) (writes : Option Nat) (x : ShardM α) :
    Exec Node Error α := fun node =>
  match (node.replicas shardId).shard with
  | none => (.error (.protocol "replica does not own requested shard"), node)
  | some shard =>
      let result := x ⟨(node.replicas shardId).disk, shard, writes⟩
      (result.1, node.setReplica shardId (.afterMethod result))

/-- A request that reads an open shard. -/
def readRequest {α : Type} (shardId : Nat) (answer : ShardDisk → ReplicaShard → Except Error α)
    (note : Node → History → History) : Request α where
  exempt := false
  note := note
  handle _ := fun node =>
    match (node.replicas shardId).shard with
    | none => (.error (.protocol "replica does not own requested shard"), node)
    | some shard => (answer (node.replicas shardId).disk shard, node)

/-- `status`. -/
def statusRequest (shardId : Nat) : Request ReplicaState :=
  readRequest shardId (fun _ shard => pure shard.state) fun _ history => history

/-- `partition`. -/
def partitionRequest (enabled : Bool) : Request Unit where
  exempt := true
  note _ history := history
  handle _ := update fun node => { node with partitioned := enabled }

/-- Note a read that an open shard is about to serve. -/
def noteServed (shardId : Nat) (node : Node) (history : History) : History :=
  if (node.replicas shardId).shard.isSome then
    { history with
      served := ⟨shardId, (node.replicas shardId).disk, history.acknowledged⟩ :: history.served }
  else history

/-- `get`. -/
def getRequest (shardId : Nat) (pointId : Int) : Request (Option Point) :=
  readRequest shardId (fun disk _ => do
    let id ← kernelInt (.int pointId)
    pure disk.collection[id]?) (noteServed shardId)

/-- `query`; `answer` is the kernel's search of the collection. -/
def queryRequest {ρ : Type} (shardId : Nat) (answer : PointMap → Except String ρ) : Request ρ :=
  readRequest shardId (fun disk _ => kernelCheck (answer disk.collection)) (noteServed shardId)

/-- The applied index of an open shard. -/
def Node.appliedIndex (node : Node) (shardId : Nat) : Nat :=
  ((node.replicas shardId).shard.map (·.state.appliedIndex)).getD 0

/-- `export`: the rows with the applied index. -/
def exportRequest (shardId : Nat) : Request (List (Int64 × Point) × Nat) :=
  readRequest shardId (fun disk shard => pure (disk.collection.toList, shard.state.appliedIndex))
    fun node history =>
      { history with exported := (shardId, node.appliedIndex shardId) :: history.exported }

/-- `install_snapshot`. -/
def installRequest (shardId : Nat) (rows : List (Int64 × Point))
    (index term placementEpoch : Nat) : Request Unit where
  exempt := false
  note _ history := history
  handle writes := Node.method shardId writes (installSnapshot rows index term placementEpoch)

section

variable [FloatRepr]

/-- `configure`, which opens the shard first when the process has not. -/
def configureRequest (shardId dimension term placementEpoch : Nat) : Request ReplicaState where
  exempt := false
  note _ history := history
  handle writes := fun node =>
    match (node.replicas shardId).shard with
    | some _ => Node.method shardId writes (configure term placementEpoch) node
    | none =>
        match openShard shardId dimension
          ⟨(node.replicas shardId).disk, .unread shardId dimension, writes⟩ with
        | (.error e, process) => (.error e, node.setReplica shardId ⟨process.disk, none⟩)
        | (.ok (), process) =>
            Node.method shardId process.writes (configure term placementEpoch)
              (node.setReplica shardId ⟨process.disk, some process.shard⟩)

/-- `prepare`, on an entry that `from_dict` has read. -/
def prepareRequest (entry : ReplicatedEntry) : Request Nat where
  exempt := false
  note _ history := history
  handle writes := Node.method entry.shardId writes (do
    lift entry.validate
    prepare entry)

/-- `commit`, on an entry that `from_dict` has read. -/
def commitRequest (entry : ReplicatedEntry) : Request Nat where
  exempt := false
  note node history :=
    { history with
      deliveries := ⟨node.replicas entry.shardId, entry, history.acknowledged⟩ ::
        history.deliveries }
  handle writes := Node.method entry.shardId writes (do
    lift entry.validate
    commit entry)

/-- The committed entries of an open shard above an index. -/
def Node.entriesAfter (node : Node) (shardId index : Nat) : List ReplicatedEntry :=
  match (node.replicas shardId).shard with
  | none => []
  | some shard => shard.journal.committedAfter index

/-- `entries`; the reply holds them as dictionaries. -/
def entriesRequest (shardId index : Nat) : Request (List ReplicatedEntry) :=
  readRequest shardId (fun _ shard => do
    let entries := shard.journal.committedAfter index
    checkEach entries ReplicatedEntry.validate
    pure entries) fun node history =>
      { history with
        learned := (node.entriesAfter shardId index).map (shardId, ·) ++ history.learned }

end

/-! ## Publication -/

/-- Change the metadata and publish it. The history notes what was published. -/
def publish (edit : MetadataEdit) (note : History → History) : ClusterM Unit := do
  let fault ← nextFault
  ensure (fault ≠ .crashBefore) .crash
  update fun world => { world with metadata := world.metadata.edit edit }
  let world ← read
  lift world.metadata.validate
  update fun world => { world with published := some world.metadata }.note note
  ensure (fault ≠ .crashAfter) .crash

/-- The `try` statements of the coordinator: an unreachable replica, a stale epoch and a
protocol error give no value. -/
def attempt {α : Type} (x : ClusterM α) : ClusterM (Option α) :=
  catching (some <$> x) fun e =>
    match e with
    | .protocol _ => pure none
    | .staleEpoch _ => pure none
    | .unavailable _ => pure none
    | e => raise e

/-- `_ensure_open`. -/
def ensureOpen : ClusterM Unit := do
  let world ← read
  ensure (¬ world.closed) .clusterClosed

/-- `_status`. -/
def status (name : String) (shardId : Nat) : ClusterM ReplicaState :=
  rpc name (statusRequest shardId)

/-- The order in which replicas are asked to serve a read: the leader first. -/
def ShardPlacement.ordered (placement : ShardPlacement) : List String :=
  placement.leader :: placement.replicas.filter (· ≠ placement.leader)

/-- The loop of `_query_replica`. -/
def firstCaughtUp (shardId required : Nat) : List String → ClusterM String
  | [] => raise (.quorumUnavailable "no caught-up replica is available for query")
  | name :: names => do
      let state ← attempt (status name shardId)
      if state.any (required ≤ ·.appliedIndex) then pure name
      else firstCaughtUp shardId required names

/-- `_query_replica`. -/
def queryReplica (shardId : Nat) : ClusterM String := do
  let world ← read
  let placement := world.metadata.shards shardId
  firstCaughtUp shardId placement.committedIndex placement.ordered

/-- One turn of `_query_shard`: no answer when the replica is behind. -/
def queryCaughtUp {ρ : Type} (shardId required : Nat) (answer : PointMap → Except String ρ)
    (name : String) : ClusterM (Option ρ) := do
  let state ← status name shardId
  if required ≤ state.appliedIndex then some <$> rpc name (queryRequest shardId answer)
  else pure none

/-- The loop of `_query_shard`. -/
def firstAnswer {ρ : Type} (shardId required : Nat) (answer : PointMap → Except String ρ) :
    List String → ClusterM ρ
  | [] => raise (.quorumUnavailable "distributed query has no caught-up replica")
  | name :: names => do
      let reply ← attempt (queryCaughtUp shardId required answer name)
      match reply with
      | some (some result) => pure result
      | _ => firstAnswer shardId required answer names

/-- `_query_shard`. -/
def queryShard {ρ : Type} (shardId : Nat) (answer : PointMap → Except String ρ) : ClusterM ρ := do
  let world ← read
  let placement := world.metadata.shards shardId
  firstAnswer shardId placement.committedIndex answer placement.ordered

/-- `search`, up to the merge of the shards' answers. -/
def search {ρ : Type} (answer : PointMap → Except String ρ) : ClusterM (List ρ) := do
  ensureOpen
  let before ← read
  let answers ← collect (List.range before.metadata.shardCount) fun shardId =>
    some <$> queryShard shardId answer
  let after ← read
  ensure (after.metadata.epoch = before.metadata.epoch)
    (.protocol "cluster metadata epoch changed during query")
  pure answers

/-- `get`. -/
def getPoint (pointId : Int) : ClusterM (Option Point) := do
  ensureOpen
  let world ← read
  let shardId := world.metadata.route pointId
  let name ← queryReplica shardId
  rpc name (getRequest shardId pointId)

section

variable [FloatRepr]

/-- `_configure` with the placement as it stands. -/
def configureReplica (shardId : Nat) (name : String) : ClusterM Unit := do
  let world ← read
  let placement := world.metadata.shards shardId
  let _ ← rpc name (configureRequest shardId world.metadata.dimension placement.term
    placement.placementEpoch)

/-- Send an entry to be prepared; `to_dict` validates it first. -/
def sendPrepare (entry : ReplicatedEntry) (name : String) : ClusterM Nat := do
  lift entry.validate
  rpc name (prepareRequest entry)

/-- Send an entry to be committed; `to_dict` validates it first. -/
def sendCommit (entry : ReplicatedEntry) (name : String) : ClusterM Nat := do
  lift entry.validate
  rpc name (commitRequest entry)

/-- The prepare loop of `_write`: the nodes that answered with the checksum. -/
def prepareOn (entry : ReplicatedEntry) (replicas : List String) : ClusterM (List String) :=
  collect replicas fun name => do
    let checksum ← attempt (sendPrepare entry name)
    pure (if checksum = some entry.mutationChecksum then some name else none)

/-- The commit loop of `_commit_prepared`: the nodes that answered. -/
def commitOn (entry : ReplicatedEntry) (replicas : List String) : ClusterM (List String) :=
  collect replicas fun name => do
    let applied ← attempt (sendCommit entry name)
    pure (applied.map fun _ => name)

/-- The status loop of `_elect_leader`: the applied indexes of the nodes that answered. -/
def candidates (shardId : Nat) (replicas : List String) : ClusterM (List (Nat × String)) :=
  collect replicas fun name => do
    let state ← attempt (status name shardId)
    pure (state.map fun state => (state.appliedIndex, name))

/-- The sort key of `_elect_leader`: the highest applied index first, then the name. -/
def ranksBefore (a b : Nat × String) : Bool :=
  b.1 < a.1 || (a.1 == b.1 && a.2 ≤ b.2)

/-- `_elect_leader`. -/
def electLeader (shardId : Nat) : ClusterM Unit := do
  let world ← read
  let placement := world.metadata.shards shardId
  let found ← candidates shardId placement.replicas
  ensure (placement.quorum ≤ found.length)
    (.quorumUnavailable "cannot elect leader without replica quorum")
  let ranked := (found.insertionSort (ranksBefore · ·)).map Prod.snd
  publish (.elect shardId (ranked.headD "")) fun history => history
  forEach ranked (configureReplica shardId)

/-- `_ensure_leader`. -/
def ensureLeader (shardId : Nat) : ClusterM Unit := do
  let world ← read
  let placement := world.metadata.shards shardId
  let state ← attempt (status placement.leader shardId)
  if state.map ReplicaState.term = some placement.term then pure () else electLeader shardId

/-! ## Writes -/

/-- `_commit_prepared`. -/
def commitPrepared (requestId : RequestId) (entry : ReplicatedEntry) (checksum : Nat) :
    ClusterM CommitResult := do
  let world ← read
  let placement := world.metadata.shards entry.shardId
  let committed ← commitOn entry placement.replicas
  ensure (placement.quorum ≤ committed.length)
    (.quorumUnavailable "mutation did not reach commit quorum")
  let result : CommitResult := ⟨entry.shardId, entry.term, entry.index, requestId⟩
  publish (.recordCommitted requestId
    ⟨entry.shardId, entry.term, entry.index, checksum, .committed⟩)
    fun history => history.acknowledge result entry.mutation
  pure result

/-- Note a write whose request is in the table. -/
def noteRetry (requestId : RequestId) (mutation : Json) (shardId : Nat)
    (record : RequestRecord) : ClusterM Unit :=
  update fun world => world.note fun history =>
    { history with
      retries := ⟨requestId, mutation, shardId, record,
          history.owners record.shardId record.index,
          (world.metadata.shards shardId).replicas.map (world.replica · shardId)⟩ ::
        history.retries }

/-- The branch of `_write` for a request that is in the table. -/
def writeAgain (requestId : RequestId) (mutation : Json) (shardId : Nat)
    (record : RequestRecord) : ClusterM CommitResult := do
  ensure (record.checksum = checksumOf mutation)
    (.protocol "request ID reused with conflicting mutation")
  match record.status with
  | .committed => do
      noteRetry requestId mutation shardId record
      let result : CommitResult := ⟨shardId, record.term, record.index, requestId⟩
      update fun world => world.note fun history => history.acknowledge result mutation
      pure result
  | .prepared => do
      ensureLeader shardId
      noteRetry requestId mutation shardId record
      let world ← read
      let placement := world.metadata.shards shardId
      commitPrepared requestId
        (.create shardId placement.term placement.placementEpoch record.index requestId mutation)
        (checksumOf mutation)

/-- Allocate the next index of a shard, publish it, and prepare an entry there; returns the
entry and the nodes that prepared it. -/
def prepareNext (requestId : RequestId) (mutation : Json) (shardId : Nat) :
    ClusterM (ReplicatedEntry × List String) := do
  let before ← read
  publish (.allocate shardId) fun history => history.own shardId
    ((before.metadata.shards shardId).lastLogIndex + 1) requestId mutation
  let world ← read
  let placement := world.metadata.shards shardId
  let entry := ReplicatedEntry.create shardId placement.term placement.placementEpoch
    placement.lastLogIndex requestId mutation
  let prepared ← prepareOn entry placement.replicas
  pure (entry, prepared)

/-- The end of `_write` for a fresh request: record it as prepared and commit it. -/
def commitFresh (requestId : RequestId) (entry : ReplicatedEntry) (prepared : List String) :
    ClusterM CommitResult := do
  let world ← read
  ensure ((world.metadata.shards entry.shardId).quorum ≤ prepared.length)
    (.quorumUnavailable "mutation did not reach prepare quorum")
  publish (.recordPrepared requestId
    ⟨entry.shardId, entry.term, entry.index, entry.mutationChecksum, .prepared⟩)
    fun history => history
  commitPrepared requestId entry entry.mutationChecksum

/-- `int(mutation["id"])`. -/
def mutationId (mutation : Json) : Except Error Int :=
  match toInt? (field mutation "id") with
  | some id => pure id
  | none => throw (.runtime "mutation id is not an integer")

/-- One round of `_write`; `leaderFailed` continues when the leader has not prepared. -/
def writeOnce (requestId : RequestId) (mutation : Json)
    (leaderFailed : Nat → ClusterM CommitResult) : ClusterM CommitResult := do
  ensureOpen
  let pointId ← lift (mutationId mutation)
  let world ← read
  let shardId := world.metadata.route pointId
  match world.metadata.requestTable requestId with
  | some record => writeAgain requestId mutation shardId record
  | none => do
      ensureLeader shardId
      let (entry, prepared) ← prepareNext requestId mutation shardId
      let world ← read
      if (world.metadata.shards shardId).leader ∈ prepared then
        commitFresh requestId entry prepared
      else leaderFailed shardId

/-- `_write` with the number of retries left: after a failed leader, elect and start over. -/
def writeRetrying (requestId : RequestId) (mutation : Json) : Nat → ClusterM CommitResult
  | 0 => writeOnce requestId mutation fun _ =>
      raise (.quorumUnavailable "leader failed during replication")
  | retries + 1 => writeOnce requestId mutation fun shardId => do
      electLeader shardId
      writeRetrying requestId mutation retries

/-- `_write`, which retries twice. The checksum of the mutation is the same in every round. -/
def write (requestId : RequestId) (mutation : Json) : ClusterM CommitResult := do
  ensureOpen
  let _ ← lift (mutationId mutation)
  let _ ← lift (payloadChecksum mutation)
  update fun world => world.submitted mutation
  writeRetrying requestId mutation 2

/-! ## Catching up, and changes of the node set -/

/-- Send one committed entry of another replica on, under a new term and epoch. -/
def relay (shardId term placementEpoch : Nat) (name : String) (old : ReplicatedEntry) :
    ClusterM Unit := do
  lift old.validate
  let entry := ReplicatedEntry.create shardId term placementEpoch old.index old.requestId
    old.mutation
  let _ ← sendPrepare entry name
  let _ ← sendCommit entry name

/-- `catch_up`. -/
def catchUp (name : String) (shardId : Nat) : ClusterM Unit := do
  let world ← read
  ensure (shardId < world.metadata.shardCount) (.runtime "unknown shard")
  let placement := world.metadata.shards shardId
  ensure (name ∈ placement.replicas) (.protocol "catch-up target is not a shard replica")
  configureReplica shardId name
  let target ← status name shardId
  let source ← queryReplica shardId
  let entries ← rpc source (entriesRequest shardId target.appliedIndex)
  forEach entries (relay shardId placement.term placement.placementEpoch name)

/-- `self.nodes[name]`. -/
def ensureMember (name : String) : ClusterM Unit := do
  let world ← read
  ensure (name ∈ world.metadata.members) (.runtime "unknown node")

/-- `stop_node`. -/
def stopNode (name : String) : ClusterM Unit := do
  ensureMember name
  update fun world => world.setNode name (world.nodes name).stop

/-- One shard of `restart_node`. -/
def rejoinShard (name : String) (shardId : Nat) : ClusterM Unit := do
  let world ← read
  if name ∈ (world.metadata.shards shardId).replicas then do
    configureReplica shardId name
    catchUp name shardId
  else pure ()

/-- `restart_node`. -/
def restartNode (name : String) : ClusterM Unit := do
  ensureMember name
  let world ← read
  ensure (¬ (world.nodes name).alive) (.runtime "replica process is already running")
  update fun world => world.setNode name (world.nodes name).start
  publish .rejoin fun history => history
  forEach world.metadata.shardOrder (rejoinShard name)

/-- `partition_node`. -/
def partitionNode (name : String) (enabled : Bool) : ClusterM Unit := do
  ensureMember name
  rpc name (partitionRequest enabled)

/-- The part of `rebalance_add_replica` before the new owner is published: configure it, install
a snapshot, and send it what was committed since. -/
def installOn (shardId : Nat) (name : String) : ClusterM Unit := do
  let world ← read
  let placement := world.metadata.shards shardId
  let source ← queryReplica shardId
  let (rows, index) ← rpc source (exportRequest shardId)
  let _ ← rpc name (configureRequest shardId world.metadata.dimension placement.term
    (placement.placementEpoch + 1))
  rpc name (installRequest shardId rows index placement.term (placement.placementEpoch + 1))
  let tail ← rpc source (entriesRequest shardId index)
  forEach tail (relay shardId placement.term (placement.placementEpoch + 1) name)

/-- `rebalance_add_replica` for a node that is not a replica yet. -/
def addReplica (shardId : Nat) (name : String) : ClusterM Unit := do
  let world ← read
  ensure (name ∈ world.metadata.members ∧ (world.nodes name).alive)
    (.unavailable "rebalancing target is unavailable")
  installOn shardId name
  let placement := world.metadata.shards shardId
  publish (.addReplica shardId name (placement.placementEpoch + 1)) fun history => history
  forEach (placement.replicas ++ [name]) (configureReplica shardId)

/-- `rebalance_add_replica`. -/
def rebalanceAddReplica (shardId : Nat) (name : String) : ClusterM Unit := do
  let world ← read
  ensure (shardId < world.metadata.shardCount) (.runtime "unknown shard")
  if name ∈ (world.metadata.shards shardId).replicas then pure () else addReplica shardId name

/-! ## Opening and closing -/

/-- `close`: every process ends. -/
def close : ClusterM Unit :=
  update fun world =>
    if world.closed then world
    else { world with closed := true, nodes := fun name => (world.nodes name).stop }

/-- The metadata a new coordinator goes on with: the published one, or that of a new cluster. -/
def startingMetadata (options : Options) : Option ClusterMetadata → Except Error ClusterMetadata
  | none => pure options.metadata
  | some metadata => do
      metadata.validate
      require (metadata.dimension = options.dimension)
        (.protocol "cluster reopen dimension mismatch")
      require ((∀ name ∈ metadata.members, name ∈ options.nodes) ∧
          ∀ name ∈ options.nodes, name ∈ metadata.members)
        (.protocol "cluster reopen member set mismatch")
      pure metadata.reopened

/-- The first publication of a new coordinator. -/
def publishFirst (metadata : ClusterMetadata) : ClusterM Unit := do
  let fault ← nextFault
  ensure (fault ≠ .crashBefore) .crash
  lift metadata.validate
  update fun world => { world with metadata, published := some metadata, up := true }
  ensure (fault ≠ .crashAfter) .crash

/-- `_configure_all` for one shard. -/
def configureShard (shardId : Nat) : ClusterM Unit := do
  let world ← read
  forEach (world.metadata.shards shardId).replicas (configureReplica shardId)

/-- The catch-up of all replicas of one shard. -/
def catchUpShard (shardId : Nat) : ClusterM Unit := do
  let world ← read
  forEach (world.metadata.shards shardId).replicas (catchUp · shardId)

/-- `DistributedCluster.__init__`. -/
def construct (options : Options) : ClusterM Unit := do
  ensure (0 < options.dimension ∧ 0 < options.shardCount)
    (.runtime "cluster dimension and shard count must be positive")
  ensure (0 < options.replicationFactor ∧ options.replicationFactor ≤ options.nodeCount)
    (.runtime "node count must cover replication factor")
  update fun world =>
    { world with
      up := false
      closed := false
      nodes := fun name =>
        if name ∈ options.nodes then (world.nodes name).start else (world.nodes name).stop }
  let world ← read
  let metadata ← lift (startingMetadata options world.published)
  publishFirst metadata
  forEach metadata.shardOrder configureShard
  forEach metadata.shardOrder catchUpShard

/-! ## Runs -/

/-- A step of a run: a call on the coordinator, the death of the coordinator between calls, or
the construction of a new one. -/
inductive ClusterCall where
  | construct (options : Options)
  | write (requestId : RequestId) (mutation : Json)
  | get (pointId : Int)
  | search
  | catchUp (name : String) (shardId : Nat)
  | stopNode (name : String)
  | restartNode (name : String)
  | partitionNode (name : String) (enabled : Bool)
  | rebalanceAddReplica (shardId : Nat) (name : String)
  | close
  | crash

/-- What a call leaves: a coordinator that died takes its processes with it. -/
def World.afterCall {α : Type} : Except Error α × World → World
  | (.error .crash, world) => world.crashed
  | (_, world) => world

/-- What a constructor leaves: without an object nothing runs. -/
def World.afterConstruct : Except Error Unit × World → World
  | (.ok (), world) => world
  | (.error _, world) => world.crashed

variable {ρ : Type} (answer : PointMap → Except String ρ)

/-- The call on a coordinator that is up. -/
def World.method (world : World) : ClusterCall → World
  | .construct _ => world
  | .write requestId mutation => .afterCall (Distributed.write requestId mutation world)
  | .get pointId => .afterCall (getPoint pointId world)
  | .search => .afterCall (Distributed.search answer world)
  | .catchUp name shardId => .afterCall (Distributed.catchUp name shardId world)
  | .stopNode name => .afterCall (Distributed.stopNode name world)
  | .restartNode name => .afterCall (Distributed.restartNode name world)
  | .partitionNode name enabled => .afterCall (Distributed.partitionNode name enabled world)
  | .rebalanceAddReplica shardId name =>
      .afterCall (Distributed.rebalanceAddReplica shardId name world)
  | .close => .afterCall (Distributed.close world)
  | .crash => world.crashed

/-- One step of a run, with the faults that fall into it. A constructor needs the old
coordinator to be gone or closed, and everything else a coordinator. -/
def World.call (world : World) (call : ClusterCall) (faults : List Fault) : World :=
  match call with
  | .construct options =>
      if world.up ∧ ¬ world.closed then world
      else .afterConstruct (Distributed.construct options { world with faults })
  | call => if world.up then World.method answer { world with faults } call else world

/-- A run from a directory nothing was written to. -/
def World.run : World → List (ClusterCall × List Fault) → World
  | world, [] => world
  | world, (call, faults) :: calls => run (world.call answer call faults) calls

end

end Akasha.Distributed

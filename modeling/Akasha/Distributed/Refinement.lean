import Akasha.Distributed.Protocol

/-!
# The programs of the coordinator are sequences of actions

Each program is followed through its faults with the weakest precondition. What a phase of RPCs
leaves alone is the relation `Quiet`; an election leaves alone what `Keeps` names. The main
theorem is `run_reaches`.
-/

namespace Akasha.Distributed

open Lib Lib.Exec Relation List

/-! ## Nodes after a request -/

@[simp] theorem set_node_self (world : World) (name : String) :
    world.setNode name (world.nodes name) = world := by
  unfold World.setNode
  congr
  funext other
  split <;> simp_all

@[simp] theorem set_node_twice (world : World) (name : String) (first second : Node) :
    (world.setNode name first).setNode name second = world.setNode name second := by
  unfold World.setNode
  congr
  funext other
  simp only
  split <;> rfl

@[simp] theorem set_node_nodes (world : World) (name : String) (node : Node) :
    (world.setNode name node).nodes name = node := by
  simp [World.setNode]

@[simp] theorem set_replica_self (node : Node) (shardId : Nat) :
    node.setReplica shardId (node.replicas shardId) = node := by
  unfold Node.setReplica
  congr
  funext shard
  split <;> simp_all

@[simp] theorem set_replica_replicas (node : Node) (shardId : Nat) (replica : Replica) :
    (node.setReplica shardId replica).replicas shardId = replica := by
  simp [Node.setReplica]

/-- What a method call leaves of a node: the replica after the method, of a process that may
have died in it. -/
theorem after_method_request {α : Type} (shardId : Nat) (writes : Option Nat) (x : ShardM α)
    (node : Node) :
    let left := node.setReplica shardId ((node.replicas shardId).method writes x)
    Node.afterRequest (Node.method shardId writes x node) = left ∨
      Node.afterRequest (Node.method shardId writes x node) = left.stop := by
  intro left
  cases hshard : (node.replicas shardId).shard with
  | none =>
      left
      simp [Node.method, Replica.method, hshard, Node.afterRequest, left]
  | some shard =>
      simp only [left, Node.method, Replica.method, hshard]
      generalize x ⟨(node.replicas shardId).disk, shard, writes⟩ = outcome
      obtain ⟨result, process⟩ := outcome
      cases result with
      | ok a => exact .inl rfl
      | error e =>
          cases e with
          | crash => exact .inr rfl
          | _ => exact .inl rfl

/-! ## Remote procedure calls and publications -/

variable {E : Error → World → Prop}

theorem wp_next_fault {world : World} :
    wp nextFault (fun _ w => ∃ faults, w = { world with faults }) E world := by
  unfold wp nextFault
  cases hfaults : world.faults with
  | nil => exact ⟨world.faults, rfl⟩
  | cons fault faults => exact ⟨faults, rfl⟩

section

variable {α : Type} {name : String} {world : World}

/-- An RPC raises before the request arrives, or the request is handled and the reply may still
be lost. -/
theorem wp_rpc {request : Request α} {Q : α → World → Prop}
    (hbefore : ∀ faults e, E e { world with faults }) (hafter : ∀ faults writes,
      let result := request.handle writes (world.nodes name)
      let left := ({ world with faults }.note (request.note (world.nodes name))).setNode name
        (.afterRequest result)
      (∀ a, result.1 = .ok a → Q a left) ∧ ∀ e, E e left) :
    wp (rpc name request) Q E world := by
  simp only [rpc, wp_bind]
  refine wp_mono wp_next_fault ?_ fun _ _ h => h
  rintro fault _ ⟨faults, rfl⟩
  obtain ⟨hok, herr⟩ := hafter faults fault.writes
  simp only [wp_ensure, wp_read]
  refine ⟨fun _ => ⟨fun _ => ⟨fun _ => ⟨fun _ => ?_, fun _ => hbefore _ _⟩,
    fun _ => hbefore _ _⟩, fun _ => hbefore _ _⟩, fun _ => hbefore _ _⟩
  change _ ∧ _
  refine ⟨fun _ => ⟨fun _ => ?_, fun _ => herr _⟩, fun _ => herr _⟩
  rw [wp_lift]
  refine ⟨fun a ha => hok a ?_, fun e _ => herr e⟩
  revert ha
  cases (request.handle fault.writes (world.nodes name)).1 <;> simp [Except.mapError]

/-- A request that reads an open shard answers from it and leaves the node alone. -/
theorem wp_read_rpc {shardId : Nat} {answer : ShardDisk → ReplicaShard → Except Error α}
    {note : Node → History → History} {Q : α → World → Prop}
    (hbefore : ∀ faults e, E e { world with faults })
    (hok : ∀ faults shard a, (world.replica name shardId).shard = some shard →
      answer (world.replica name shardId).disk shard = .ok a →
      Q a ({ world with faults }.note (note (world.nodes name))))
    (herr : ∀ faults e, let noted := { world with faults }.note (note (world.nodes name))
      E e noted ∧ E e (noted.setNode name (noted.nodes name).stop)) :
    wp (rpc name (readRequest shardId answer note)) Q E world := by
  refine wp_rpc hbefore fun faults writes => ?_
  obtain ⟨hsame, hstop⟩ : (∀ e, E e _) ∧ ∀ e, E e _ :=
    ⟨fun e => (herr faults e).1, fun e => (herr faults e).2⟩
  have hself : ({ world with faults }.note (note (world.nodes name))).setNode name
      (world.nodes name) = { world with faults }.note (note (world.nodes name)) :=
    set_node_self _ name
  simp only [readRequest]
  cases hshard : ((world.nodes name).replicas shardId).shard with
  | none => 
      refine ⟨fun _ h => (by cases h), fun e => ?_⟩
      simpa only [Node.afterRequest, hself] using hsame e
  | some shard =>
      dsimp only
      cases hanswer : answer ((world.nodes name).replicas shardId).disk shard with
      | ok a =>
          simp only [Node.afterRequest, hself]
          exact ⟨fun _ h => hok faults shard _ hshard (hanswer.trans h), hsame⟩
      | error e =>
          refine ⟨fun _ h => (by cases h), fun e' => ?_⟩
          cases e with
          | crash => exact hstop e'
          | _ => simpa only [Node.afterRequest, hself] using hsame e'

end

theorem wp_attempt {α : Type} {x : ClusterM α} {Q : Option α → World → Prop}
    {E : Error → World → Prop} {world : World}
    (h : wp x (fun a => Q (some a)) (fun e w => Q none w ∧ E e w) world) :
    wp (attempt x) Q E world := by
  simp only [attempt, wp_catching, wp_map]
  refine wp_mono h (fun _ _ h => h) ?_
  rintro e w ⟨hnone, he⟩
  cases e <;> simpa

theorem wp_publish {edit : MetadataEdit} {note : History → History} {world : World}
    {Q : Unit → World → Prop} (hbefore : ∀ faults, E .crash { world with faults })
    (hrefused : (world.metadata.edit edit).validate ≠ .ok () → ∀ faults e,
      E e { world with faults, metadata := world.metadata.edit edit })
    (hdone : (world.metadata.edit edit).validate = .ok () → ∀ faults,
      let left := { (world.publishing (world.metadata.edit edit)).note note with faults }
      Q () left ∧ E .crash left) :
    wp (publish edit note) Q E world := by
  simp only [publish, wp_bind]
  refine wp_mono wp_next_fault ?_ fun _ _ h => h
  rintro fault _ ⟨faults, rfl⟩
  simp only [wp_ensure, wp_update, wp_read, wp_lift]
  refine ⟨fun _ => ⟨fun _ hvalid => ?_, fun e he => ?_⟩, fun _ => hbefore faults⟩
  · exact ⟨fun _ => (hdone hvalid faults).1, fun _ => (hdone hvalid faults).2⟩
  · exact hrefused (by simp [he]) faults e

variable [FloatRepr]

/-! ## What a phase leaves alone -/

/-- The cluster got from one world to another without a change to the request table, the owners
of indexes, or the constants of the metadata. -/
structure Keeps (world after : World) : Prop where
  acts : Acts world after
  table : after.metadata.requestTable = world.metadata.requestTable
  shardCount : after.metadata.shardCount = world.metadata.shardCount
  members : after.metadata.members = world.metadata.members
  owners : after.history.owners = world.history.owners
  written : after.history.written = world.history.written
  retries : after.history.retries = world.history.retries
  learned : world.history.learned ⊆ after.history.learned
  exported : world.history.exported ⊆ after.history.exported

/-- Moreover the metadata did not change. -/
structure Quiet (world after : World) : Prop where
  keeps : Keeps world after
  metadata : after.metadata = world.metadata

theorem Keeps.refl (world : World) : Keeps world world :=
  ⟨.refl, rfl, rfl, rfl, rfl, rfl, rfl, fun _ h => h, fun _ h => h⟩

theorem Keeps.trans {first second third : World} (h : Keeps first second)
    (h' : Keeps second third) : Keeps first third :=
  ⟨h.acts.trans h'.acts, h'.table.trans h.table, h'.shardCount.trans h.shardCount,
    h'.members.trans h.members, h'.owners.trans h.owners, h'.written.trans h.written,
    h'.retries.trans h.retries,
    fun _ hmem => h'.learned (h.learned hmem), fun _ hmem => h'.exported (h.exported hmem)⟩

theorem Quiet.refl (world : World) : Quiet world world :=
  ⟨.refl world, rfl⟩

theorem Quiet.trans {first second third : World} (h : Quiet first second)
    (h' : Quiet second third) : Quiet first third :=
  ⟨h.keeps.trans h'.keeps, h'.metadata.trans h.metadata⟩

theorem quiet_faults (world : World) (faults : List Fault) : Quiet world { world with faults } :=
  ⟨⟨.single (.faults world faults), rfl, rfl, rfl, rfl, rfl, rfl, fun _ h => h, fun _ h => h⟩, rfl⟩

theorem quiet_stop (world : World) (name : String) :
    Quiet world (world.setNode name (world.nodes name).stop) :=
  ⟨⟨.single (.stop world name), rfl, rfl, rfl, rfl, rfl, rfl, fun _ h => h, fun _ h => h⟩, rfl⟩

theorem quiet_call {world : World} {name : String} {shardId : Nat} {call : ReplicaCall}
    (writes : Option Nat) (h : Calls world name shardId call) :
    Quiet world (world.callReplica name shardId writes call) :=
  ⟨⟨.single (.call world name shardId writes h), rfl, rfl, rfl, rfl, rfl, rfl, fun _ h => h,
    fun _ h => h⟩, rfl⟩

theorem quiet_rpc {α : Type} {name : String} {world : World} {request : Request α}
    (h : ∀ faults writes, Quiet world (({ world with faults }.note
      (request.note (world.nodes name))).setNode name
        (.afterRequest (request.handle writes (world.nodes name))))) :
    wp (rpc name request) (fun _ => Quiet world) (fun _ => Quiet world) world :=
  wp_rpc (fun faults _ => quiet_faults world faults)
    fun faults writes => ⟨fun _ _ => h faults writes, fun _ => h faults writes⟩

/-! ## Single requests -/

variable {entry : ReplicatedEntry}

section

variable {name : String} {world : World} {shardId : Nat}

theorem wp_status :
    wp (status name shardId)
      (fun state w => ∃ faults shard, (world.replica name shardId).shard = some shard ∧
        state = shard.state ∧ w = { world with faults })
      (fun _ => Quiet world) world := by
  refine wp_read_rpc (fun faults _ => quiet_faults world faults) ?_ fun faults _ => ?_
  · intro faults shard state hshard hstate
    exact ⟨faults, shard, hshard, (pure_ok.1 hstate).symm, rfl⟩
  · exact ⟨quiet_faults world faults, (quiet_stop world name).trans (quiet_faults _ faults)⟩

theorem quiet_status :
    wp (status name shardId) (fun _ => Quiet world) (fun _ => Quiet world) world := by
  refine wp_mono wp_status ?_ fun _ _ h => h
  rintro state _ ⟨faults, -, -, -, rfl⟩
  exact quiet_faults world faults

theorem quiet_method_rpc {α : Type} {request : Request α} {x : ShardM α}
    (hhandle : ∀ writes, request.handle writes = Node.method shardId writes x)
    (h : ∀ writes, Quiet world ((world.note (request.note (world.nodes name))).setReplica name
      shardId ((world.replica name shardId).method writes x))) :
    wp (rpc name request) (fun _ => Quiet world) (fun _ => Quiet world) world := by
  refine quiet_rpc fun faults writes => ?_
  rw [hhandle]
  rcases after_method_request shardId writes x (world.nodes name) with hsame | hstop
  · rw [hsame]
    exact (h writes).trans (quiet_faults _ faults)
  · rw [hstop]
    have hquiet := (h writes).trans (quiet_stop _ name)
    simp only [World.setReplica, set_node_nodes, set_node_twice] at hquiet
    exact hquiet.trans (quiet_faults _ faults)

/-- Configuring a replica with the term and epoch it may have. -/
theorem quiet_configure {term placementEpoch : Nat}
    (h : Configures world name shardId term placementEpoch) :
    wp (rpc name (configureRequest shardId world.metadata.dimension term placementEpoch))
      (fun _ => Quiet world) (fun _ => Quiet world) world := by
  refine quiet_rpc fun faults writes => ?_
  simp only [configureRequest]
  have hmethod : ∀ (reached : World) (writes : Option Nat), Quiet world reached →
      Quiet world (({ reached with faults }).setNode name (.afterRequest
        (Node.method shardId writes (configure term placementEpoch) (reached.nodes name)))) := by
    intro reached writes hreached
    have hcalls : Calls reached name shardId (.configure term placementEpoch) := by
      refine .configure ?_
      simpa only [Configures, hreached.metadata] using h
    have hleft := hreached.trans (quiet_call writes hcalls)
    rcases after_method_request shardId writes (configure term placementEpoch)
      (reached.nodes name) with hsame | hstop
    · rw [hsame]
      exact hleft.trans (quiet_faults _ faults)
    · rw [hstop]
      have hquiet := hleft.trans (quiet_stop _ name)
      simp only [World.callReplica, World.setReplica, set_node_nodes, set_node_twice] at hquiet
      exact hquiet.trans (quiet_faults _ faults)
  cases hshard : ((world.nodes name).replicas shardId).shard with
  | some shard => exact hmethod world writes (.refl world)
  | none =>
      -- The shard is opened first; the outcome is that of the call `reopen`.
      have hopen := @quiet_call _ world name shardId _ writes (.reopen hshard)
      have hcall : (world.replica name shardId).call shardId world.metadata.dimension writes
          .reopen = .afterOpen (openShard shardId world.metadata.dimension
            ⟨((world.nodes name).replicas shardId).disk,
              .unread shardId world.metadata.dimension, writes⟩) := rfl
      rw [World.callReplica, hcall] at hopen
      revert hopen
      generalize openShard shardId world.metadata.dimension
        ⟨((world.nodes name).replicas shardId).disk,
          .unread shardId world.metadata.dimension, writes⟩ = outcome
      obtain ⟨result, process⟩ := outcome
      intro hopen
      cases result with
      | ok u =>
          have hquiet := hmethod _ process.writes hopen
          rw [World.setReplica, set_node_nodes] at hquiet
          have htwice := set_node_twice { world with faults } name
            ((world.nodes name).setReplica shardId ⟨process.disk, some process.shard⟩)
          exact htwice _ ▸ hquiet
      | error e =>
          cases e with
          | crash =>
              have hquiet := hopen.trans (quiet_stop _ name)
              simp only [World.setReplica, set_node_nodes, set_node_twice] at hquiet
              exact hquiet.trans (quiet_faults _ faults)
          | _ => exact hopen.trans (quiet_faults _ faults)

theorem quiet_send_prepare (h : Allocated world entry ∨ Relayed world entry) :
    wp (sendPrepare entry name) (fun _ => Quiet world) (fun _ => Quiet world) world := by
  simp only [sendPrepare, wp_bind, wp_lift]
  refine ⟨fun _ hvalid => ?_, fun _ _ => .refl world⟩
  refine @quiet_method_rpc _ name world entry.shardId _ _ (prepare entry) (fun writes => ?_)
    fun writes => quiet_call writes (.prepare rfl hvalid h)
  simp only [prepareRequest, lift_ok_bind hvalid]

theorem quiet_relay (writes : Option Nat) (hvalid : entry.validate = .ok ())
    (h : Relayed world entry) :
    Quiet world (world.deliverCommit name entry writes) :=
  ⟨⟨.single (.relay world name writes hvalid h), rfl, rfl, rfl, rfl, rfl, rfl, fun _ h => h,
    fun _ h => h⟩, rfl⟩

theorem quiet_send_commit (h : Relayed world entry) :
    wp (sendCommit entry name) (fun _ => Quiet world) (fun _ => Quiet world) world := by
  simp only [sendCommit, wp_bind, wp_lift]
  refine ⟨fun _ hvalid => ?_, fun _ _ => .refl world⟩
  refine @quiet_method_rpc _ name world entry.shardId _ _ (commit entry) (fun writes => ?_)
    fun writes => quiet_relay writes hvalid h
  simp only [commitRequest, lift_ok_bind hvalid]

/-- A commit of a round arrives or not. -/
theorem sends_send_commit :
    wp (sendCommit entry name) (fun _ => Sends entry world) (fun _ => Sends entry world) world := by
  simp only [sendCommit, wp_bind, wp_lift]
  refine ⟨fun _ hvalid => ?_, fun _ _ => .refl⟩
  have hfaults : ∀ faults, Sends entry world { world with faults } := fun faults =>
    .single (.faults world faults)
  have hafter : ∀ faults writes, Sends entry world (({ world with faults }.note
      ((commitRequest entry).note (world.nodes name))).setNode name
        (.afterRequest ((commitRequest entry).handle writes (world.nodes name)))) := by
    intro faults writes
    have hdeliver : Sends entry world (world.deliverCommit name entry writes) :=
      .single (.deliver world name writes)
    simp only [commitRequest, lift_ok_bind hvalid]
    rcases after_method_request entry.shardId writes (commit entry) (world.nodes name) with
      hsame | hstop
    · rw [hsame]
      exact hdeliver.tail (.faults _ faults)
    · rw [hstop]
      have hstopped := hdeliver.tail (.stop _ name)
      simp only [World.deliverCommit, World.callReplica, World.setReplica, set_node_nodes,
        set_node_twice] at hstopped
      exact hstopped.tail (.faults _ faults)
  exact wp_rpc (fun faults _ => hfaults faults)
    fun faults writes => ⟨fun _ _ => hafter faults writes, fun _ => hafter faults writes⟩

theorem quiet_entries {index : Nat} :
    wp (rpc name (entriesRequest shardId index))
      (fun entries w => Quiet world w ∧ ∀ entry ∈ entries, (shardId, entry) ∈ w.history.learned)
      (fun _ => Quiet world) world := by
  have hlearn : Quiet world (world.note ((entriesRequest shardId index).note
      (world.nodes name))) :=
    ⟨⟨.single (.learn world name shardId index), rfl, rfl, rfl, rfl, rfl, rfl,
      fun _ h => mem_append_right _ h, fun _ h => h⟩, rfl⟩
  refine wp_read_rpc (fun faults _ => quiet_faults world faults) ?_ fun faults _ =>
    ⟨hlearn.trans (quiet_faults _ faults),
      (hlearn.trans (quiet_stop _ name)).trans (quiet_faults _ faults)⟩
  intro faults shard entries hshard hentries
  obtain ⟨_, -, hentries⟩ := bind_ok.1 hentries
  cases pure_ok.1 hentries
  refine ⟨hlearn.trans (quiet_faults _ faults), fun entry hentry => ?_⟩
  refine mem_append_left _ (mem_map.2 ⟨entry, ?_, rfl⟩)
  have hshard' : ((world.nodes name).replicas shardId).shard = some shard := hshard
  simpa only [Node.entriesAfter, hshard'] using hentry

theorem quiet_export :
    wp (rpc name (exportRequest shardId))
      (fun rows w => Quiet world w ∧ (shardId, rows.2) ∈ w.history.exported)
      (fun _ => Quiet world) world := by
  have hexport : Quiet world (world.note ((exportRequest shardId).note (world.nodes name))) :=
    ⟨⟨.single (.exportRows world name shardId), rfl, rfl, rfl, rfl, rfl, rfl, fun _ h => h,
      fun _ h => mem_cons_of_mem _ h⟩, rfl⟩
  refine wp_read_rpc (fun faults _ => quiet_faults world faults) ?_ fun faults _ =>
    ⟨hexport.trans (quiet_faults _ faults),
      (hexport.trans (quiet_stop _ name)).trans (quiet_faults _ faults)⟩
  intro faults shard rows hshard hrows
  cases pure_ok.1 hrows
  refine ⟨hexport.trans (quiet_faults _ faults), ?_⟩
  have hshard' : ((world.nodes name).replicas shardId).shard = some shard := hshard
  simp [World.note, Node.appliedIndex, hshard']

theorem quiet_install {rows : List (Int64 × Point)} {index : Nat}
    (hexported : (shardId, index) ∈ world.history.exported)
    (hnew : name ∉ (world.metadata.shards shardId).replicas) :
    wp (rpc name (installRequest shardId rows index (world.metadata.shards shardId).term
        ((world.metadata.shards shardId).placementEpoch + 1)))
      (fun _ => Quiet world) (fun _ => Quiet world) world :=
  quiet_method_rpc (fun _ => rfl) fun writes =>
    ⟨⟨.single (.install world name shardId writes rows hexported hnew), rfl, rfl, rfl, rfl, rfl, rfl,
      fun _ h => h, fun _ h => h⟩, rfl⟩

theorem quiet_serve {α : Type} {answer : ShardDisk → ReplicaShard → Except Error α}
    (hname : name ∈ (world.metadata.shards shardId).ordered)
    (h : ∀ shard ∈ (world.replica name shardId).shard,
      (world.metadata.shards shardId).committedIndex ≤ shard.state.appliedIndex) :
    wp (rpc name (readRequest shardId answer (noteServed shardId)))
      (fun _ => Quiet world) (fun _ => Quiet world) world := by
  have hserve : Quiet world (world.note (noteServed shardId (world.nodes name))) := by
    refine ⟨⟨.single (.serve world name shardId hname h), rfl, rfl, rfl, ?_, ?_, ?_, ?_, ?_⟩, rfl⟩
    all_goals
      simp only [World.note, noteServed]
      split <;> simp
  exact wp_read_rpc (fun faults _ => quiet_faults world faults)
    (fun faults _ _ _ _ => hserve.trans (quiet_faults _ faults)) fun faults _ =>
      ⟨hserve.trans (quiet_faults _ faults),
        (hserve.trans (quiet_stop _ name)).trans (quiet_faults _ faults)⟩

theorem quiet_partition {enabled : Bool} :
    wp (rpc name (partitionRequest enabled)) (fun _ => Quiet world) (fun _ => Quiet world)
      world := by
  refine quiet_rpc fun faults _ => ?_
  have hpartition : Quiet world
      (world.setNode name { world.nodes name with partitioned := enabled }) :=
    ⟨⟨.single (.partition world name enabled), rfl, rfl, rfl, rfl, rfl, rfl, fun _ h => h,
      fun _ h => h⟩, rfl⟩
  exact hpartition.trans (quiet_faults _ faults)

end

/-! ## Phases of requests -/

theorem Quiet.before {α : Type} {x : ClusterM α} {world reached : World}
    (h : Quiet world reached)
    (hx : wp x (fun _ => Quiet reached) (fun _ => Quiet reached) reached) :
    wp x (fun _ => Quiet world) (fun _ => Quiet world) reached :=
  wp_mono hx (fun _ _ hr => h.trans hr) fun _ _ hr => h.trans hr

section

variable {world : World} {shardId : Nat}

/-- A node found by the loop of `_query_replica` has applied what was asked for. -/
theorem wp_first_caught_up {required : Nat} {names : List String} :
    wp (firstCaughtUp shardId required names)
      (fun name w => Quiet world w ∧ name ∈ names ∧ ∀ shard ∈ (w.replica name shardId).shard,
        required ≤ shard.state.appliedIndex)
      (fun _ => Quiet world) world := by
  suffices h : ∀ reached, Quiet world reached → wp (firstCaughtUp shardId required names)
      (fun name w => Quiet world w ∧ name ∈ names ∧ ∀ shard ∈ (w.replica name shardId).shard,
        required ≤ shard.state.appliedIndex)
      (fun _ => Quiet world) reached from h world (.refl world)
  induction names with
  | nil => exact fun reached h => h
  | cons name names ih =>
      intro reached h
      have hlater : ∀ w, wp (firstCaughtUp shardId required names)
          (fun found w => Quiet world w ∧ found ∈ names ∧
            ∀ shard ∈ (w.replica found shardId).shard, required ≤ shard.state.appliedIndex)
          (fun _ => Quiet world) w → wp (firstCaughtUp shardId required names)
          (fun found w => Quiet world w ∧ found ∈ name :: names ∧
            ∀ shard ∈ (w.replica found shardId).shard, required ≤ shard.state.appliedIndex)
          (fun _ => Quiet world) w := fun w hw =>
        wp_mono hw (fun _ _ h => ⟨h.1, mem_cons_of_mem _ h.2.1, h.2.2⟩) fun _ _ h => h
      simp only [firstCaughtUp, wp_bind]
      refine wp_attempt (wp_mono wp_status ?_ ?_)
      · rintro state _ ⟨faults, shard, hshard, rfl, rfl⟩
        have hquiet := h.trans (quiet_faults reached faults)
        rw [wp_ite]
        refine ⟨fun hany => ?_, fun _ => hlater _ (ih _ hquiet)⟩
        refine ⟨hquiet, mem_cons_self, fun other hother => ?_⟩
        have hsame : (reached.replica name shardId).shard = some other := hother
        cases hshard.symm.trans hsame
        simpa using hany
      · intro e w hw
        refine ⟨?_, h.trans hw⟩
        simpa using hlater w (ih w (h.trans hw))

theorem wp_query_replica :
    wp (queryReplica shardId)
      (fun name w => Quiet world w ∧ name ∈ (w.metadata.shards shardId).ordered ∧
        ∀ shard ∈ (w.replica name shardId).shard,
          (w.metadata.shards shardId).committedIndex ≤ shard.state.appliedIndex)
      (fun _ => Quiet world) world := by
  simp only [queryReplica, wp_bind, wp_read]
  refine wp_mono wp_first_caught_up ?_ fun _ _ h => h
  rintro name w ⟨hquiet, hshard⟩
  exact ⟨hquiet, by simpa only [hquiet.metadata] using hshard⟩

theorem quiet_query_caught_up {ρ : Type} {answer : PointMap → Except String ρ} {name : String}
    (hname : name ∈ (world.metadata.shards shardId).ordered) :
    wp (queryCaughtUp shardId (world.metadata.shards shardId).committedIndex answer name)
      (fun _ => Quiet world) (fun _ => Quiet world) world := by
  simp only [queryCaughtUp, wp_bind]
  refine wp_mono wp_status ?_ fun _ _ h => h
  rintro state _ ⟨faults, shard, hshard, rfl, rfl⟩
  have hquiet := quiet_faults world faults
  rw [wp_ite]
  refine ⟨fun hle => ?_, fun _ => hquiet⟩
  rw [wp_map]
  refine hquiet.before (quiet_serve hname fun other hother => ?_)
  have hsame : (world.replica name shardId).shard = some other := hother
  cases hshard.symm.trans hsame
  exact hle

/-- `_query_shard`. -/
theorem quiet_query_shard {ρ : Type} {answer : PointMap → Except String ρ} :
    wp (queryShard shardId answer) (fun _ => Quiet world) (fun _ => Quiet world) world := by
  simp only [queryShard, wp_bind, wp_read]
  suffices h : ∀ names ⊆ (world.metadata.shards shardId).ordered, ∀ reached,
      Quiet world reached → wp (firstAnswer shardId
        (world.metadata.shards shardId).committedIndex answer names)
        (fun _ => Quiet world) (fun _ => Quiet world) reached from
    h _ (fun _ h => h) world (.refl world)
  intro names
  induction names with
  | nil => exact fun _ reached h => h
  | cons name names ih =>
      intro hnames reached h
      replace ih := ih fun _ hmem => hnames (mem_cons_of_mem _ hmem)
      simp only [firstAnswer, wp_bind]
      have hturn := @quiet_query_caught_up _ reached shardId ρ answer name
        (by rw [h.metadata]; exact hnames mem_cons_self)
      rw [h.metadata] at hturn
      refine wp_attempt (wp_mono hturn ?_ fun _ w hw => ⟨ih w (h.trans hw), h.trans hw⟩)
      intro result w hw
      cases result with
      | none => exact ih w (h.trans hw)
      | some result => exact h.trans hw

theorem quiet_search {ρ : Type} {answer : PointMap → Except String ρ} :
    wp (search answer) (fun _ => Quiet world) (fun _ => Quiet world) world := by
  simp only [search, ensureOpen, wp_bind, wp_read, wp_ensure]
  refine ⟨fun _ => ?_, fun _ => .refl world⟩
  refine wp_mono (wp_collect_inv (Quiet world) _ ?_ (.refl world)) ?_ fun _ _ h => h
  · intro shard _ reached h
    rw [wp_map]
    exact h.before quiet_query_shard
  · exact fun _ w h => ⟨fun _ => h, fun _ => h⟩

theorem quiet_get {pointId : Int} :
    wp (getPoint pointId) (fun _ => Quiet world) (fun _ => Quiet world) world := by
  simp only [getPoint, ensureOpen, wp_bind, wp_read, wp_ensure]
  refine ⟨fun _ => ?_, fun _ => .refl world⟩
  refine wp_mono wp_query_replica ?_ fun _ _ h => h
  rintro name w ⟨hquiet, hname, hshard⟩
  exact hquiet.before (quiet_serve hname hshard)

theorem quiet_configure_replica {name : String}
    (h : name ∈ (world.metadata.shards shardId).replicas) :
    wp (configureReplica shardId name) (fun _ => Quiet world) (fun _ => Quiet world) world := by
  simp only [configureReplica, wp_bind, wp_read, wp_pure]
  exact quiet_configure ⟨rfl, .inl ⟨h, rfl⟩⟩

theorem quiet_configure_each {names : List String}
    (h : ∀ name ∈ names, name ∈ (world.metadata.shards shardId).replicas) :
    wp (forEach names (configureReplica shardId)) (fun _ => Quiet world) (fun _ => Quiet world)
      world := by
  refine wp_for_each_inv (Quiet world) names ?_ (.refl world)
  intro name hname reached hreached
  refine hreached.before (quiet_configure_replica ?_)
  rw [hreached.metadata]
  exact h name hname

theorem quiet_relay_entry {term placementEpoch : Nat} {name : String} {old : ReplicatedEntry}
    (h : (shardId, old) ∈ world.history.learned) :
    wp (relay shardId term placementEpoch name old) (fun _ => Quiet world) (fun _ => Quiet world)
      world := by
  simp only [relay, wp_bind, wp_lift]
  refine ⟨fun _ _ => ?_, fun _ _ => .refl world⟩
  refine wp_mono (quiet_send_prepare (.inr ⟨old, h, rfl, rfl, rfl⟩)) ?_ fun _ _ h => h
  intro _ w hw
  exact hw.before (quiet_send_commit ⟨old, hw.keeps.learned h, rfl, rfl, rfl⟩)

theorem quiet_relay_each {term placementEpoch : Nat} {name : String}
    {entries : List ReplicatedEntry} (h : ∀ old ∈ entries, (shardId, old) ∈ world.history.learned) :
    wp (forEach entries (relay shardId term placementEpoch name)) (fun _ => Quiet world)
      (fun _ => Quiet world) world := by
  refine wp_for_each_inv (Quiet world) entries ?_ (.refl world)
  intro old hold reached hreached
  exact hreached.before (quiet_relay_entry (hreached.keeps.learned (h old hold)))

theorem quiet_catch_up {name : String} :
    wp (catchUp name shardId) (fun _ => Quiet world) (fun _ => Quiet world) world := by
  simp only [catchUp, wp_bind, wp_read, wp_ensure]
  refine ⟨fun _ => ⟨fun hname => ?_, fun _ => .refl world⟩, fun _ => .refl world⟩
  refine wp_mono (quiet_configure_replica hname) ?_ fun _ _ h => h
  intro _ configured hconfigured
  refine wp_mono (hconfigured.before quiet_status) ?_ fun _ _ h => h
  intro target asked hasked
  refine wp_mono wp_query_replica ?_ fun _ _ h => hasked.trans h
  rintro source found ⟨hfound, -⟩
  refine wp_mono quiet_entries ?_ fun _ _ h => (hasked.trans hfound).trans h
  rintro entries w ⟨hw, hlearned⟩
  exact ((hasked.trans hfound).trans hw).before (quiet_relay_each hlearned)

end

/-! ## Publications -/

section

variable {world : World} {shardId : Nat}

theorem acts_publish {edit : MetadataEdit} {note : History → History}
    (h : Edits world edit note) :
    wp (publish edit note)
      (fun _ w => Acts world w ∧ ∃ faults,
        w = { (world.publishing (world.metadata.edit edit)).note note with faults })
      (fun _ => Acts world) world := by
  refine wp_publish (fun faults => .single (.faults world faults)) ?_ ?_
  · intro hinvalid faults e
    exact (ReflTransGen.single (.refuse world h hinvalid)).tail (.faults _ faults)
  · intro hvalid faults
    have hacts := (ReflTransGen.single (Act.publish world h hvalid)).tail (.faults _ faults)
    exact ⟨⟨hacts, faults, rfl⟩, hacts⟩

theorem wp_candidates {replicas : List String} :
    wp (candidates shardId replicas)
      (fun found w => Quiet world w ∧ ∀ candidate ∈ found, candidate.2 ∈ replicas)
      (fun _ => Quiet world) world := by
  refine wp_collect (fun _ (found : List (Nat × String)) w => Quiet world w ∧
    ∀ candidate ∈ found, candidate.2 ∈ replicas) replicas ?_ ⟨.refl world, by simp⟩
  rintro before found name after rfl reached ⟨hreached, hfound⟩
  simp only [wp_bind, wp_pure]
  refine wp_attempt (wp_mono (hreached.before quiet_status) ?_ ?_)
  · intro state w hw
    refine ⟨hw, fun candidate hcandidate => ?_⟩
    simp only [Option.map_some, Option.toList_some, mem_append, mem_singleton]
      at hcandidate
    rcases hcandidate with hcandidate | rfl
    · exact hfound candidate hcandidate
    · simp
  · intro e w hw
    exact ⟨⟨hw, by simpa using hfound⟩, hw⟩

omit [FloatRepr] in
theorem ranked_replicas {placement : ShardPlacement} {found : List (Nat × String)}
    (hfound : ∀ candidate ∈ found, candidate.2 ∈ placement.replicas)
    (hquorum : placement.quorum ≤ found.length) :
    let ranked := (found.insertionSort (ranksBefore · ·)).map Prod.snd
    (∀ name ∈ ranked, name ∈ placement.replicas) ∧ ranked.headD "" ∈ ranked := by
  intro ranked
  constructor
  · intro name hname
    obtain ⟨candidate, hcandidate, rfl⟩ := mem_map.1 hname
    exact hfound candidate (by simpa using hcandidate)
  · have hlength : ranked.length = found.length := by simp [ranked]
    have hpos : 0 < ranked.length := by
      rw [hlength]
      exact lt_of_lt_of_le (Nat.succ_pos _) hquorum
    obtain ⟨name, names, hcons⟩ := exists_cons_of_length_pos hpos
    simp [hcons]

/-- `_elect_leader`. -/
theorem keeps_elect_leader :
    wp (electLeader shardId) (fun _ => Keeps world) (fun _ w => Acts world w) world := by
  simp only [electLeader, wp_bind, wp_read]
  refine wp_mono wp_candidates ?_ fun _ _ h => h.keeps.acts
  rintro found reached ⟨hreached, hfound⟩
  simp only [wp_ensure]
  refine ⟨fun hquorum => ?_, fun _ => hreached.keeps.acts⟩
  obtain ⟨hsub, hleader⟩ := ranked_replicas hfound hquorum
  rw [← hreached.metadata] at hsub
  refine wp_mono (acts_publish (.elect (hsub _ hleader))) ?_
    fun _ _ h => hreached.keeps.acts.trans h
  rintro _ _ ⟨hpublished, faults, rfl⟩
  refine wp_mono (quiet_configure_each ?_) ?_
    fun _ _ h => (hreached.keeps.acts.trans hpublished).trans h.keeps.acts
  · intro name hname
    simpa [World.note, World.publishing, ClusterMetadata.edit, ClusterMetadata.editShard]
      using hsub name hname
  · intro _ w hw
    refine hreached.keeps.trans (Keeps.trans ⟨hpublished, rfl, rfl, rfl, rfl, rfl, rfl, fun _ h => h,
      fun _ h => h⟩ hw.keeps)

theorem keeps_ensure_leader :
    wp (ensureLeader shardId) (fun _ => Keeps world) (fun _ w => Acts world w) world := by
  simp only [ensureLeader, wp_bind, wp_read]
  have hrest : ∀ state reached, Quiet world reached → wp
      (if Option.map ReplicaState.term state = some (world.metadata.shards shardId).term then
        pure () else electLeader shardId) (fun _ => Keeps world) (fun _ w => Acts world w)
      reached := by
    intro state reached h
    rw [wp_ite]
    refine ⟨fun _ => h.keeps, fun _ => ?_⟩
    exact wp_mono keeps_elect_leader (fun _ _ hw => h.keeps.trans hw)
      fun _ _ hw => h.keeps.acts.trans hw
  exact wp_attempt (wp_mono quiet_status (fun state reached h => hrest (some state) reached h)
    fun _ reached h => ⟨hrest none reached h, h.keeps.acts⟩)

end

/-! ## Writes -/

theorem acts_of_quiet {α : Type} {x : ClusterM α} {world : World}
    (h : wp x (fun _ => Quiet world) (fun _ => Quiet world) world) :
    wp x (fun _ => Acts world) (fun _ => Acts world) world :=
  wp_mono h (fun _ _ hw => hw.keeps.acts) fun _ _ hw => hw.keeps.acts

theorem acts_before {α : Type} {x : ClusterM α} {world reached : World}
    (h : Acts world reached)
    (hx : wp x (fun _ => Acts reached) (fun _ => Acts reached) reached) :
    wp x (fun _ => Acts world) (fun _ => Acts world) reached :=
  wp_mono hx (fun _ _ hr => h.trans hr) fun _ _ hr => h.trans hr

section

variable {world : World} {shardId : Nat} {requestId : RequestId} {mutation : Json}

/-- `_commit_prepared` is a commit round. -/
theorem acts_commit_prepared (h : Round world requestId entry) :
    wp (commitPrepared requestId entry entry.mutationChecksum) (fun _ => Acts world)
      (fun _ => Acts world) world := by
  have hfailed : ∀ w, Sends entry world w → Acts world w := fun w hw =>
    .single (.round world h hw (.failed w))
  simp only [commitPrepared, wp_bind, wp_read, wp_ensure, wp_pure]
  refine wp_mono (wp_collect_inv (Sends entry world) _ ?_ .refl) ?_
    fun _ w hw => hfailed w hw
  · intro name _ reached hreached
    simp only [wp_bind, wp_pure]
    refine wp_attempt (wp_mono sends_send_commit (fun _ w hw => hreached.trans hw) ?_)
    exact fun _ w hw => ⟨hreached.trans hw, hreached.trans hw⟩
  · intro committed sent hsent
    refine ⟨fun _ => ?_, fun _ => hfailed sent hsent⟩
    refine wp_publish (fun faults => hfailed _ (hsent.tail (.faults _ faults))) ?_ ?_
    · intro hinvalid faults _
      exact .single (.round world h (hsent.tail (.faults _ faults)) (.refused _ hinvalid))
    · intro hvalid faults
      have hpublished : Acts world _ :=
        .single (.round world h (hsent.tail (.faults _ faults)) (.published _ hvalid))
      exact ⟨hpublished, hpublished⟩

theorem Found.keeps {record : RequestRecord} {reached : World}
    (h : Found world requestId mutation shardId record) (hkeeps : Keeps world reached) :
    Found reached requestId mutation shardId record := by
  obtain ⟨pointId, hid, hroute⟩ := h.routed
  refine ⟨hkeeps.written ▸ h.written, hkeeps.table ▸ h.recorded, h.checksum, pointId, hid, ?_⟩
  rw [← hroute, ClusterMetadata.route, ClusterMetadata.route, hkeeps.shardCount]

/-- The branch of `_write` for a request in the table. -/
theorem acts_write_again {record : RequestRecord}
    (hwritten : mutation ∈ world.history.written)
    (hrecorded : world.metadata.requestTable requestId = some record)
    (hrouted : ∃ pointId, mutationId mutation = .ok pointId ∧
      world.metadata.route pointId = shardId) :
    wp (writeAgain requestId mutation shardId record) (fun _ => Acts world)
      (fun _ => Acts world) world := by
  simp only [writeAgain, wp_bind, wp_ensure]
  refine ⟨fun hchecksum => ?_, fun _ => .refl⟩
  have hfound : Found world requestId mutation shardId record :=
    ⟨hwritten, hrecorded, hchecksum, hrouted⟩
  cases hstatus : record.status with
  | committed =>
      simp only [noteRetry, wp_bind, wp_update, wp_pure]
      exact .single (.answer world hfound hstatus)
  | prepared =>
      simp only [wp_bind]
      refine wp_mono keeps_ensure_leader ?_ fun _ _ h => h
      intro _ reached hreached
      have hfound' := hfound.keeps hreached
      simp only [noteRetry, wp_update, wp_read]
      have hretry := Act.retry reached hfound'
      refine acts_before (hreached.acts.tail hretry) (acts_commit_prepared ?_)
      refine ⟨rfl, hfound'.written, rfl, record, hfound'.recorded, rfl, hchecksum, .inr ?_⟩
      exact ⟨_, mem_cons_self, rfl, rfl, rfl, rfl, rfl⟩

/-- What `prepareNext` leaves: an entry at the last index of the shard, which is its own. -/
structure Fresh (world after : World) (requestId : RequestId) (mutation : Json) (shardId : Nat)
    (entry : ReplicatedEntry) : Prop where
  acts : Acts world after
  table : after.metadata.requestTable = world.metadata.requestTable
  written : mutation ∈ after.history.written
  retries : after.history.retries = world.history.retries
  request : entry.requestId = requestId
  shard : entry.shardId = shardId
  mutation_eq : entry.mutation = mutation
  checksum : entry.mutationChecksum = checksumOf mutation
  index : entry.index = (after.metadata.shards shardId).lastLogIndex
  owner : after.history.owners shardId entry.index = some (requestId, mutation)

/-- Allocating an index and preparing an entry there. -/
theorem wp_prepare_next {pointId : Int} (hwritten : mutation ∈ world.history.written)
    (hid : mutationId mutation = .ok pointId)
    (hroute : world.metadata.route pointId = shardId) :
    wp (prepareNext requestId mutation shardId)
      (fun result w => Fresh world w requestId mutation shardId result.1)
      (fun _ => Acts world) world := by
  simp only [prepareNext, wp_bind, wp_read, wp_pure]
  have hallocate := acts_publish
    (@Edits.allocate _ world shardId requestId mutation pointId hwritten hid hroute)
  refine wp_mono hallocate ?_ fun _ _ h => h
  rintro _ allocated ⟨hacts, faults, hworld⟩
  have hindex : (allocated.metadata.shards shardId).lastLogIndex =
      (world.metadata.shards shardId).lastLogIndex + 1 := by
    simp [hworld, World.note, World.publishing, ClusterMetadata.edit, ClusterMetadata.editShard]
  have howner : allocated.history.owners shardId
      (allocated.metadata.shards shardId).lastLogIndex = some (requestId, mutation) := by
    rw [hindex]
    simp [hworld, World.note, World.publishing, History.own]
  refine wp_mono (wp_collect_inv (Quiet allocated) _ ?_ (.refl allocated)) ?_
    fun _ w (h : Quiet allocated w) => hacts.trans h.keeps.acts
  · intro name _ reached hreached
    simp only [wp_bind, wp_pure]
    have hown : Allocated reached (.create shardId (allocated.metadata.shards shardId).term
        (allocated.metadata.shards shardId).placementEpoch
        (allocated.metadata.shards shardId).lastLogIndex requestId mutation) := by
      refine ⟨requestId, rfl, ?_⟩
      rw [hreached.keeps.owners]
      exact howner
    exact wp_attempt (wp_mono (hreached.before (quiet_send_prepare (.inl hown)))
      (fun _ _ h => h) fun _ _ h => ⟨h, h⟩)
  · intro prepared w hw
    refine ⟨hacts.trans hw.keeps.acts, ?_, ?_, ?_, rfl, rfl, rfl, rfl, ?_, ?_⟩
    · rw [hw.metadata, hworld]
      rfl
    · rw [hw.keeps.written, hworld]
      exact hwritten
    · rw [hw.keeps.retries, hworld]
      rfl
    · rw [hw.metadata]
      rfl
    · rw [hw.keeps.owners]
      exact howner

/-- Recording a prepared entry and committing it. -/
theorem acts_commit_fresh {reached : World} {entry : ReplicatedEntry}
    {prepared : List String} (h : Fresh world reached requestId mutation shardId entry)
    (hnew : world.metadata.requestTable requestId = none) :
    wp (commitFresh requestId entry prepared) (fun _ => Acts world) (fun _ => Acts world)
      reached := by
  obtain ⟨hacts, htable, hwritten, -, hrequest, rfl, rfl, hchecksum, hindex, howner⟩ := h
  simp only [commitFresh, wp_bind, wp_read, wp_ensure]
  refine ⟨fun _ => ?_, fun _ => hacts⟩
  rw [hchecksum]
  have hrecord := acts_publish (@Edits.recordPrepared _ reached requestId entry.mutation
    entry.shardId entry.term entry.index (htable ▸ hnew) howner)
  refine wp_mono hrecord ?_ fun _ _ h => hacts.trans h
  rintro _ recorded ⟨hpublished, faults, hworld⟩
  rw [← hchecksum] at hworld ⊢
  refine acts_before (hacts.trans hpublished) (acts_commit_prepared ?_)
  refine ⟨hrequest, ?_, hchecksum, ⟨entry.shardId, entry.term, entry.index,
    entry.mutationChecksum, .prepared⟩, ?_, rfl, rfl, .inl ⟨rfl, ?_, requestId, hrequest, ?_⟩⟩
  · rw [hworld]
    exact hwritten
  · rw [hworld]
    simp [World.note, World.publishing, ClusterMetadata.edit, ClusterMetadata.record]
  · rw [hworld]
    exact hindex
  · rw [hworld]
    exact howner

/-- One round of `_write`. -/
theorem acts_write_once {leaderFailed : Nat → ClusterM CommitResult}
    (hwritten : mutation ∈ world.history.written)
    (hfailed : ∀ shardId reached, mutation ∈ reached.history.written →
      wp (leaderFailed shardId) (fun _ => Acts reached) (fun _ => Acts reached) reached) :
    wp (writeOnce requestId mutation leaderFailed) (fun _ => Acts world)
      (fun _ => Acts world) world := by
  simp only [writeOnce, ensureOpen, wp_bind, wp_read, wp_ensure, wp_lift]
  refine ⟨fun _ => ⟨fun pointId hid => ?_, fun _ _ => .refl⟩, fun _ => .refl⟩
  cases hrecord : world.metadata.requestTable requestId with
  | some record => exact acts_write_again hwritten hrecord ⟨pointId, hid, rfl⟩
  | none =>
      simp only [wp_bind, wp_read]
      refine wp_mono keeps_ensure_leader ?_ fun _ _ h => h
      intro _ led hled
      have hroute : led.metadata.route pointId = world.metadata.route pointId := by
        rw [ClusterMetadata.route, ClusterMetadata.route, hled.shardCount]
      refine wp_mono (wp_prepare_next (hled.written ▸ hwritten) hid hroute) ?_
        fun _ _ h => hled.acts.trans h
      rintro ⟨entry, prepared⟩ reached hfresh
      rw [wp_ite]
      refine ⟨fun _ => ?_, fun _ => acts_before (hled.acts.trans hfresh.acts)
        (hfailed _ _ hfresh.written)⟩
      exact wp_mono (acts_commit_fresh hfresh (hled.table ▸ hrecord))
        (fun _ _ h => hled.acts.trans h) fun _ _ h => hled.acts.trans h

theorem acts_write_retrying (retries : Nat) (hwritten : mutation ∈ world.history.written) :
    wp (writeRetrying requestId mutation retries) (fun _ => Acts world)
      (fun _ => Acts world) world := by
  induction retries generalizing world with
  | zero => exact acts_write_once hwritten fun _ reached _ => .refl
  | succ retries ih =>
      refine acts_write_once hwritten fun shardId reached hreached => ?_
      simp only [wp_bind]
      refine wp_mono keeps_elect_leader ?_ fun _ _ h => h
      intro _ w hw
      exact acts_before hw.acts (ih (hw.written ▸ hreached))

/-- A write raises at once and changes nothing, or submits its mutation and starts its rounds. -/
theorem wp_write {post : CommitResult → World → Prop} {err : Error → World → Prop}
    (hraise : ∀ e, err e world)
    (h : convertible mutation = true →
      wp (writeRetrying requestId mutation 2) post err (world.submitted mutation)) :
    wp (write requestId mutation) post err world := by
  simp only [write, ensureOpen, wp_bind, wp_read, wp_ensure, wp_lift, wp_update]
  exact ⟨fun _ => ⟨fun _ _ => ⟨fun _ hsum => h (payload_checksum_ok.1 hsum).1,
    fun e _ => hraise e⟩, fun e _ => hraise e⟩, fun _ => hraise _⟩

theorem write_admitted {pointId : Int} {checksum : Nat} (hopen : world.closed = false)
    (hid : mutationId mutation = .ok pointId) (hchecksum : payloadChecksum mutation = .ok checksum) :
    write requestId mutation world =
      writeRetrying requestId mutation 2 (world.submitted mutation) := by
  have hensure : ensureOpen world = (.ok (), world) := by
    rw [ensureOpen, read_bind, ensure_of (by simp [hopen])]
  rw [write, bind_of_ok hensure, lift_ok_bind hid, lift_ok_bind hchecksum, update_bind]

theorem acts_write :
    wp (write requestId mutation) (fun _ => Acts world) (fun _ => Acts world) world :=
  wp_write (fun _ => .refl) fun _ => acts_before (.single (.submit world mutation))
    (acts_write_retrying 2 (by simp [World.note]))

end

/-! ## Changes of the node set -/

section

variable {world : World} {shardId : Nat} {name : String}

theorem acts_stop_node :
    wp (stopNode name) (fun _ => Acts world) (fun _ => Acts world) world := by
  simp only [stopNode, ensureMember, wp_bind, wp_read, wp_ensure, wp_update]
  exact ⟨fun _ => .single (.stop world name), fun _ => .refl⟩

theorem acts_partition_node {enabled : Bool} :
    wp (partitionNode name enabled) (fun _ => Acts world) (fun _ => Acts world) world := by
  simp only [partitionNode, ensureMember, wp_bind, wp_read, wp_ensure]
  refine ⟨fun _ => ?_, fun _ => .refl⟩
  exact wp_mono quiet_partition (fun _ _ h => h.keeps.acts) fun _ _ h => h.keeps.acts

theorem quiet_rejoin_shard :
    wp (rejoinShard name shardId) (fun _ => Quiet world) (fun _ => Quiet world) world := by
  simp only [rejoinShard, wp_bind, wp_read, wp_ite, wp_pure]
  refine ⟨fun hname => ?_, fun _ => .refl world⟩
  refine wp_mono (quiet_configure_replica hname) ?_ fun _ _ h => h
  exact fun _ w hw => hw.before quiet_catch_up

theorem acts_restart_node :
    wp (restartNode name) (fun _ => Acts world) (fun _ => Acts world) world := by
  simp only [restartNode, ensureMember, wp_bind, wp_read, wp_ensure, wp_update]
  refine ⟨fun _ => ⟨fun _ => ?_, fun _ => .refl⟩, fun _ => .refl⟩
  have hstart : Acts world _ := .single (.start world name)
  refine wp_mono (acts_publish .rejoin) ?_ fun _ _ h => hstart.trans h
  rintro _ published ⟨hpublished, -⟩
  refine acts_before (hstart.trans hpublished) ?_
  refine acts_of_quiet (wp_for_each_inv (Quiet published) _ ?_ (.refl published))
  exact fun _ _ _ h => h.before quiet_rejoin_shard

/-- The preparation of a new replica. -/
theorem quiet_install_on (hnew : name ∉ (world.metadata.shards shardId).replicas) :
    wp (installOn shardId name)
      (fun _ w => Quiet world w ∧ ∃ index, (shardId, index) ∈ w.history.exported)
      (fun _ => Quiet world) world := by
  simp only [installOn, wp_bind, wp_read]
  refine wp_mono wp_query_replica ?_ fun _ _ h => h
  rintro source found ⟨hfound, -⟩
  refine wp_mono quiet_export ?_ fun _ _ h => hfound.trans h
  rintro ⟨rows, index⟩ copied ⟨hcopied, hexported⟩
  have hcopied := hfound.trans hcopied
  have hconfigure := @quiet_configure _ name copied shardId
    (world.metadata.shards shardId).term ((world.metadata.shards shardId).placementEpoch + 1)
    (by rw [Configures, hcopied.metadata]; exact ⟨rfl, .inr ⟨hnew, rfl⟩⟩)
  rw [hcopied.metadata] at hconfigure
  refine wp_mono hconfigure ?_ fun _ _ h => hcopied.trans h
  intro _ configured hconfigured
  have hinstall := @quiet_install _ name configured shardId rows index
    (hconfigured.keeps.exported hexported)
    (by rw [hconfigured.metadata, hcopied.metadata]; exact hnew)
  rw [hconfigured.metadata, hcopied.metadata] at hinstall
  refine wp_mono hinstall ?_ fun _ _ h => (hcopied.trans hconfigured).trans h
  intro _ installed hinstalled
  have hexported := hinstalled.keeps.exported (hconfigured.keeps.exported hexported)
  have hinstalled := (hcopied.trans hconfigured).trans hinstalled
  refine wp_mono quiet_entries ?_ fun _ _ h => hinstalled.trans h
  rintro tail w ⟨hw, hlearned⟩
  refine wp_mono (quiet_relay_each hlearned) ?_ fun _ _ h => (hinstalled.trans hw).trans h
  exact fun _ relayed h => ⟨(hinstalled.trans hw).trans h, index,
    h.keeps.exported (hw.keeps.exported hexported)⟩

/-- `rebalance_add_replica`. -/
theorem acts_rebalance :
    wp (rebalanceAddReplica shardId name) (fun _ => Acts world) (fun _ => Acts world)
      world := by
  simp only [rebalanceAddReplica, wp_bind, wp_read, wp_ensure, wp_ite, wp_pure]
  refine ⟨fun _ => ⟨fun _ => .refl, fun hnew => ?_⟩, fun _ => .refl⟩
  simp only [addReplica, wp_bind, wp_read, wp_ensure]
  refine ⟨fun hmember => ?_, fun _ => .refl⟩
  refine wp_mono (quiet_install_on hnew) ?_ fun _ _ h => h.keeps.acts
  rintro _ installed ⟨hinstalled, hexported⟩
  have hadd := acts_publish (@Edits.addReplica _ installed shardId name
    (by rw [hinstalled.metadata]; exact hnew) (by rw [hinstalled.metadata]; exact hmember.1)
    hexported)
  rw [hinstalled.metadata] at hadd
  refine wp_mono hadd ?_ fun _ _ h => hinstalled.keeps.acts.trans h
  rintro _ added ⟨hpublished, faults, hworld⟩
  refine acts_before (hinstalled.keeps.acts.trans hpublished) ?_
  refine wp_mono (quiet_configure_each ?_) (fun _ _ h => h.keeps.acts)
    fun _ _ h => h.keeps.acts
  intro replica hreplica
  simpa [hworld, World.note, World.publishing, ClusterMetadata.edit, ClusterMetadata.editShard]
    using hreplica

theorem quiet_start_up {shards : List Nat} :
    wp (do
        forEach shards configureShard
        forEach shards catchUpShard)
      (fun _ => Quiet world) (fun _ => Quiet world) world := by
  rw [wp_bind]
  refine wp_mono (wp_for_each_inv (Quiet world) _ ?_ (.refl world)) ?_ fun _ _ h => h
  · intro shard _ reached hreached
    simp only [configureShard, wp_bind, wp_read]
    exact hreached.before (quiet_configure_each fun _ h => h)
  · intro _ configured hconfigured
    refine wp_for_each_inv (Quiet world) _ ?_ hconfigured
    intro shard _ reached hreached
    simp only [catchUpShard, wp_bind, wp_read]
    exact wp_for_each_inv (Quiet world) _ (fun _ _ _ h => h.before quiet_catch_up) hreached

theorem reaches_from_boot {α : Type} {x : ClusterM α} {booted : World}
    (h : Reaches world booted) (hup : booted.up = true)
    (hx : wp x (fun _ => Quiet booted) (fun _ => Quiet booted) booted) :
    wp x (fun _ => Reaches world) (fun _ => Reaches world) booted :=
  wp_mono hx (fun _ _ hw => h.trans (reaches_of_acts hup hw.keeps.acts).1)
    fun _ _ hw => h.trans (reaches_of_acts hup hw.keeps.acts).1

theorem reaches_construct {options : Options} :
    wp (construct options) (fun _ => Reaches world) (fun _ => Reaches world) world := by
  rw [construct]
  simp only [wp_bind, wp_ensure, wp_update, wp_read, wp_lift]
  refine ⟨fun _ => ⟨fun _ => ?_, fun _ => .refl⟩, fun _ => .refl⟩
  have hreset : Reaches world _ := .single (.reset world options)
  refine ⟨fun metadata hmetadata => ?_, fun _ _ => hreset⟩
  simp only [publishFirst, wp_bind]
  refine wp_mono wp_next_fault ?_ fun _ _ h => h
  rintro fault _ ⟨faults, rfl⟩
  have hfaults := hreset.tail (.faults _ faults)
  simp only [wp_ensure, wp_lift, wp_update]
  refine ⟨fun _ => ⟨fun _ hvalid => ?_, fun _ _ => hfaults⟩, fun _ => hfaults⟩
  have hboot := hfaults.tail (.boot _ hmetadata hvalid)
  refine ⟨fun _ => ?_, fun _ => hboot⟩
  have hstarted := reaches_from_boot hboot rfl (@quiet_start_up _ _ metadata.shardOrder)
  rw [wp_bind] at hstarted
  exact hstarted

end

/-! ## Runs -/

section

variable {ρ : Type} {answer : PointMap → Except String ρ} {world : World}

theorem reaches_after_call {α : Type} {x : ClusterM α} (hup : world.up = true)
    (h : wp x (fun _ => Acts world) (fun _ => Acts world) world) :
    Reaches world (.afterCall (x world)) := by
  replace h := wp_mono h (fun _ _ hw => (reaches_of_acts hup hw).1)
    fun _ _ hw => (reaches_of_acts hup hw).1
  unfold wp at h
  cases hx : x world with
  | mk result w =>
      rw [hx] at h
      cases result with
      | ok a => exact h
      | error e =>
          cases e with
          | crash => exact h.tail (.crash w)
          | _ => exact h

theorem reaches_after_construct {options : Options} :
    Reaches world (.afterConstruct (construct options world)) := by
  have h := @reaches_construct _ world options
  unfold wp at h
  cases hx : construct options world with
  | mk result w =>
      rw [hx] at h
      cases result with
      | ok a => exact h
      | error e => exact h.tail (.crash w)

/-- A call on a coordinator is a sequence of actions. -/
theorem reaches_method (hup : world.up = true) (call : ClusterCall) :
    Reaches world (World.method answer world call) := by
  cases call with
  | construct options => exact .refl
  | write requestId mutation => exact reaches_after_call hup acts_write
  | get pointId => exact reaches_after_call hup (acts_of_quiet quiet_get)
  | search => exact reaches_after_call hup (acts_of_quiet quiet_search)
  | catchUp name shardId => exact reaches_after_call hup (acts_of_quiet quiet_catch_up)
  | stopNode name => exact reaches_after_call hup acts_stop_node
  | restartNode name => exact reaches_after_call hup acts_restart_node
  | partitionNode name enabled => exact reaches_after_call hup acts_partition_node
  | rebalanceAddReplica shardId name => exact reaches_after_call hup acts_rebalance
  | close =>
      show Reaches world (.afterCall (close world))
      refine reaches_after_call hup ?_
      rw [close, wp_update]
      split
      · exact .refl
      · exact .single (.shutdown world)
  | crash => exact .single (.crash world)

theorem reaches_call (call : ClusterCall) (faults : List Fault) :
    Reaches world (world.call answer call faults) := by
  have hfaults : Reaches world { world with faults } := .single (.faults world faults)
  cases call with
  | construct options =>
      simp only [World.call]
      split
      · exact .refl
      · exact hfaults.trans reaches_after_construct
  | _ =>
      simp only [World.call]
      split
      · exact hfaults.trans (reaches_method ‹_› _)
      · exact .refl

theorem run_reaches (calls : List (ClusterCall × List Fault)) :
    Reaches world (World.run answer world calls) := by
  induction calls generalizing world with
  | nil => exact .refl
  | cons first calls ih => exact (reaches_call first.1 first.2).trans ih

end

end Akasha.Distributed

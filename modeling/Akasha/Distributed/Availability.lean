import Akasha.Distributed.Requests

/-!
# When writes work again

Once every replica of a shard runs and is reachable and nothing fails any more, a fresh write
succeeds exactly when enough replicas can take part in it. If the leader has the shard open in
the term and epoch of the placement, these are the replicas that have, too; nothing else brings
the others up to date. Otherwise the write elects a leader first, which every replica that has
the shard open joins. The main theorem is `write_succeeds_iff_ready`.
-/

namespace Akasha.Distributed

open Lib Lib.Exec Relation List

/-! ## Replicas that can take part -/

namespace World

/-- The node has the shard open. -/
def loaded (world : World) (shardId : Nat) (name : String) : Bool :=
  (world.replica name shardId).shard.isSome

/-- The node has the shard open in the term and epoch of the placement. -/
def current (world : World) (shardId : Nat) (name : String) : Bool :=
  (world.replica name shardId).shard.any fun shard =>
    shard.state.term = (world.metadata.shards shardId).term ∧
      shard.state.placementEpoch = (world.metadata.shards shardId).placementEpoch

/-- The replicas of a shard with a property make a quorum. -/
def QuorumOf (world : World) (shardId : Nat) (property : String → Bool) : Prop :=
  (world.metadata.shards shardId).quorum ≤
    ((world.metadata.shards shardId).replicas.filter property).length

end World

/-- Enough replicas can take part in a write: the current ones while the leader is current, else
all that have the shard open. -/
structure Ready (world : World) (shardId : Nat) : Prop where
  led : world.current shardId (world.metadata.shards shardId).leader = true →
    world.QuorumOf shardId (world.current shardId)
  unled : world.current shardId (world.metadata.shards shardId).leader = false →
    world.QuorumOf shardId (world.loaded shardId)

theorem ready_of_led {world : World} {shardId : Nat}
    (h : world.current shardId (world.metadata.shards shardId).leader = true) :
    Ready world shardId ↔ world.QuorumOf shardId (world.current shardId) :=
  ⟨fun hready => hready.led h, fun hquorum => ⟨fun _ => hquorum, fun hnot => by simp [h] at hnot⟩⟩

theorem ready_of_unled {world : World} {shardId : Nat}
    (h : world.current shardId (world.metadata.shards shardId).leader = false) :
    Ready world shardId ↔ world.QuorumOf shardId (world.loaded shardId) :=
  ⟨fun hready => hready.unled h, fun hquorum => ⟨fun hnot => by simp [h] at hnot, fun _ => hquorum⟩⟩

/-- Nothing fails any more, and every replica of the shard runs and is reachable. -/
structure Calm (world : World) (shardId : Nat) : Prop where
  faults : world.faults = []
  reachable : ∀ name ∈ (world.metadata.shards shardId).replicas,
    (world.nodes name).alive = true ∧ (world.nodes name).partitioned = false

/-! ## Programs without faults -/

section

variable {world : World} {name : String} {α : Type}

/-- A request to a reachable replica arrives. -/
theorem rpc_arrives {request : Request α} (hfaults : world.faults = [])
    (halive : (world.nodes name).alive = true)
    (hreachable : (world.nodes name).partitioned = false) :
    rpc name request world = ((request.handle none (world.nodes name)).1.mapError wireError,
      (world.note (request.note (world.nodes name))).setNode name
        (.afterRequest (request.handle none (world.nodes name)))) := by
  have hfault : nextFault world = (.ok .none, world) := by
    simp [nextFault, hfaults]
  rw [rpc, bind_of_ok hfault, bind_of_ok (ensure_of (by simp) _ _), read_bind,
    bind_of_ok (ensure_of halive _ _), bind_of_ok (ensure_of (by simp) _ _),
    bind_of_ok (ensure_of (.inr (by simp [hreachable])) _ _)]
  rfl

/-- A request that arrives is answered. -/
theorem rpc_calm {request : Request α} {result : Except Error α} {node : Node}
    (hfaults : world.faults = []) (halive : (world.nodes name).alive = true)
    (hreachable : (world.nodes name).partitioned = false)
    (hhandle : request.handle none (world.nodes name) = (result, node))
    (hresult : result ≠ .error .crash) :
    rpc name request world = (result.mapError wireError,
      (world.note (request.note (world.nodes name))).setNode name node) := by
  have hnode : Node.afterRequest (result, node) = node := by
    unfold Node.afterRequest
    split <;> simp_all
  rw [rpc_arrives hfaults halive hreachable, hhandle, hnode]

theorem attempt_rpc_calm {request : Request α} {result : Except Error α} {node : Node}
    (hfaults : world.faults = []) (halive : (world.nodes name).alive = true)
    (hreachable : (world.nodes name).partitioned = false)
    (hhandle : request.handle none (world.nodes name) = (result, node))
    (hresult : result ≠ .error .crash) :
    attempt (rpc name request) world = (.ok result.toOption,
      (world.note (request.note (world.nodes name))).setNode name node) := by
  have hrpc := rpc_calm hfaults halive hreachable hhandle hresult
  cases result with
  | ok a =>
      simp [attempt, catching, Functor.map, hrpc, Except.mapError, Except.toOption, Exec.bind,
        Exec.pure]
  | error e =>
      simp only [attempt, catching, Functor.map, Exec.bind, hrpc, Except.mapError]
      cases e <;> rfl

theorem publish_calm {edit : MetadataEdit} {note : History → History}
    (hfaults : world.faults = []) (hvalid : (world.metadata.edit edit).validate = .ok ()) :
    publish edit note world =
      (.ok (), (world.publishing (world.metadata.edit edit)).note note) := by
  have hfault : nextFault world = (.ok .none, world) := by
    simp [nextFault, hfaults]
  rw [publish, bind_of_ok hfault, bind_of_ok (ensure_of (by simp) _ _), update_bind, read_bind,
    lift_ok_bind hvalid]
  rfl

end

/-! ## Replicas without faults -/

/-- The replica has the shard of an entry open, in the term and epoch of the entry. -/
def Replica.takes (replica : Replica) (entry : ReplicatedEntry) : Bool :=
  replica.shard.any fun shard =>
    shard.state.term = entry.term ∧ shard.state.placementEpoch = entry.placementEpoch

/-- An open replica has nothing at or above the index of an entry. -/
structure Room (dimension : Nat) (entry : ReplicatedEntry) (shard : ReplicaShard) : Prop where
  shardId_eq : shard.shardId = entry.shardId
  dimension_eq : shard.dimension = dimension
  snapshot_lt : shard.journal.snapshotIndex < entry.index
  applied_lt : shard.state.appliedIndex < entry.index
  unprepared : shard.journal.prepared[entry.index]? = none
  uncommitted : entry.index ∉ shard.journal.committed

/-- An open replica has prepared an entry and not committed it. -/
structure Holding (dimension : Nat) (entry : ReplicatedEntry) (shard : ReplicaShard) : Prop where
  shardId_eq : shard.shardId = entry.shardId
  dimension_eq : shard.dimension = dimension
  applied_lt : shard.state.appliedIndex < entry.index
  prepared : shard.journal.prepared[entry.index]? = some entry
  uncommitted : entry.index ∉ shard.journal.committed
  term_eq : shard.state.term = entry.term
  epoch_eq : shard.state.placementEpoch = entry.placementEpoch

section

variable [FloatRepr] {disk : ShardDisk} {shard : ReplicaShard} {entry : ReplicatedEntry}
  {dimension : Nat} {node : Node} {shardId : Nat}

omit [FloatRepr] in
theorem method_raised {α : Type} {x : ShardM α} {e : Error}
    (hshard : (node.replicas shardId).shard = some shard)
    (hx : x ⟨(node.replicas shardId).disk, shard, none⟩ =
      (.error e, ⟨(node.replicas shardId).disk, shard, none⟩)) (he : e ≠ .crash) :
    Node.method shardId none x node = (.error e, node) := by
  have hreplica : Replica.afterMethod ((.error e : Except Error α),
      (⟨(node.replicas shardId).disk, shard, none⟩ : Process)) = node.replicas shardId := by
    cases hreplica : node.replicas shardId with
    | mk disk opened =>
        rw [hreplica] at hshard
        cases hshard
        cases e <;> first | rfl | exact absurd rfl he
  simp only [Node.method, hshard, hx]
  rw [hreplica, set_replica_self]

theorem configure_handle {term placementEpoch : Nat}
    (hshard : (node.replicas shardId).shard = some shard) (hterm : shard.state.term ≤ term)
    (hepoch : shard.state.placementEpoch ≤ placementEpoch) :
    (configureRequest shardId dimension term placementEpoch).handle none node =
      (.ok ⟨term, placementEpoch, shard.state.appliedIndex⟩, node.setReplica shardId
        ⟨{ (node.replicas shardId).disk with
            state := ⟨term, placementEpoch, shard.state.appliedIndex⟩ },
          some { shard with state := ⟨term, placementEpoch, shard.state.appliedIndex⟩ }⟩) := by
  have hconfigure : configure term placementEpoch ⟨(node.replicas shardId).disk, shard, none⟩ =
      (.ok ⟨term, placementEpoch, shard.state.appliedIndex⟩,
        ⟨{ (node.replicas shardId).disk with
            state := ⟨term, placementEpoch, shard.state.appliedIndex⟩ },
          { shard with state := ⟨term, placementEpoch, shard.state.appliedIndex⟩ }, none⟩) := by
    simp only [configure, read_bind]
    rw [if_neg (by omega)]
    rfl
  simp only [configureRequest, hshard, Node.method, hconfigure]
  rfl

omit [FloatRepr] in
/-- A replica in another term or epoch, or without the shard, refuses an entry. -/
theorem refuses_entry {α : Type} {x : ShardM α} (hmine : ∀ shard,
      (node.replicas entry.shardId).shard = some shard → shard.shardId = entry.shardId)
    (htakes : (node.replicas entry.shardId).takes entry = false)
    (hx : ∀ disk shard e, shard.validateEntryEpoch entry = .error e →
      x ⟨disk, shard, none⟩ = (.error e, ⟨disk, shard, none⟩)) :
    ∃ e, e ≠ .crash ∧ Node.method entry.shardId none x node = (.error e, node) := by
  cases hshard : (node.replicas entry.shardId).shard with
  | none =>
      refine ⟨.protocol "replica does not own requested shard", by simp, ?_⟩
      simp only [Node.method, hshard]
  | some shard =>
      refine ⟨.staleEpoch "stale shard term or placement epoch", by simp,
        method_raised hshard (hx _ _ _ ?_) (by simp)⟩
      have hne : ¬ (entry.term = shard.state.term ∧
          entry.placementEpoch = shard.state.placementEpoch) := by
        rintro ⟨hterm, hepoch⟩
        simp [Replica.takes, hshard, hterm, hepoch] at htakes
      simp [ReplicaShard.validateEntryEpoch, require, hmine shard hshard, hne, bind,
        Except.bind]

/-- A replica in the term and epoch of a fresh entry prepares it. -/
theorem prepare_handle (hvalid : entry.validate = .ok ())
    (hmutation : validateReplicatedMutation entry.mutation (some dimension) = .ok ())
    (hshard : (node.replicas entry.shardId).shard = some shard) (hroom : Room dimension entry shard)
    (hterm : shard.state.term = entry.term)
    (hepoch : shard.state.placementEpoch = entry.placementEpoch) :
    ∃ disk, (prepareRequest entry).handle none node = (.ok entry.mutationChecksum,
      node.setReplica entry.shardId
        ⟨disk, some { shard with journal := shard.journal.addPrepared entry }⟩) := by
  have hentry : shard.validateEntryEpoch entry = .ok () := by
    simp only [ReplicaShard.validateEntryEpoch, bind_ok, require_ok, exists_unit]
    exact ⟨hroom.shardId_eq.symm, hterm.symm, hepoch.symm⟩
  have hprepare : journalPrepare entry ⟨(node.replicas entry.shardId).disk, shard, none⟩ =
      (.ok (), ⟨{ (node.replicas entry.shardId).disk with
        journal := (node.replicas entry.shardId).disk.journal.tear.append (.prepare entry) },
        { shard with journal := shard.journal.addPrepared entry }, none⟩) := by
    rw [journalPrepare, lift_ok_bind hvalid, read_bind]
    simp only [hroom.unprepared]
    rfl
  refine ⟨{ (node.replicas entry.shardId).disk with
    journal := (node.replicas entry.shardId).disk.journal.tear.append (.prepare entry) }, ?_⟩
  simp only [prepareRequest, Node.method, hshard]
  rw [lift_ok_bind hvalid, prepare, read_bind, lift_ok_bind hentry,
    lift_ok_bind (hroom.dimension_eq ▸ hmutation), bind_of_ok (ensure_of hroom.snapshot_lt _ _),
    bind_of_ok hprepare]
  rfl

/-- A replica that holds an entry of an accepted mutation commits it. -/
theorem commit_handle (hvalid : entry.validate = .ok ())
    (hmutation : validateReplicatedMutation entry.mutation (some dimension) = .ok ())
    (haccepts : KernelAccepts entry.mutation)
    (hshard : (node.replicas entry.shardId).shard = some shard)
    (hholding : Holding dimension entry shard) :
    ∃ applied replica, (commitRequest entry).handle none node =
      (.ok applied, node.setReplica entry.shardId replica) := by
  have hentry : shard.validateEntryEpoch entry = .ok () := by
    simp only [ReplicaShard.validateEntryEpoch, bind_ok, require_ok, exists_unit]
    exact ⟨hholding.shardId_eq.symm, hholding.term_eq.symm, hholding.epoch_eq.symm⟩
  obtain ⟨operation, -, hperform⟩ := steps_of_accepts hmutation haccepts
  rw [← hholding.dimension_eq] at hmutation hperform
  have hcommit : wp (commit entry) (fun _ _ => True) (fun _ _ => False)
      ⟨(node.replicas entry.shardId).disk, shard, none⟩ := by
    simp only [commit, wp_bind, wp_read, wp_lift, hentry, hmutation, journalPrepare, hvalid,
      hholding.prepared, wp_ite, ne_eq, not_true_eq_false, wp_pure, wp_raise, journalCommit,
      hholding.uncommitted]
    refine ⟨fun _ _ => ⟨fun _ _ => ⟨fun _ _ => ⟨False.elim, fun _ => ⟨False.elim, fun _ => ?_⟩⟩,
      by simp⟩, by simp⟩, by simp⟩
    refine wp_append_line (fun left hleft => ?_) (fun hne => absurd rfl hne)
      fun hne => absurd rfl hne
    simp only [modifyShard, wp_update, applyOnce, wp_bind, wp_read, wp_ite, wp_pure]
    refine ⟨fun _ => ?_, fun _ => trivial⟩
    exact wp_apply_entry hmutation hperform (fun _ _ => trivial)
      fun hne => absurd (hleft rfl) hne
  unfold wp at hcommit
  simp only [commitRequest, Node.method, hshard]
  rw [lift_ok_bind hvalid]
  cases houtcome : commit entry ⟨(node.replicas entry.shardId).disk, shard, none⟩ with
  | mk result process =>
      rw [houtcome] at hcommit
      cases result with
      | ok applied => exact ⟨applied, _, rfl⟩
      | error e => exact hcommit.elim

theorem prepare_refused (hvalid : entry.validate = .ok ()) (hmine : ∀ shard,
      (node.replicas entry.shardId).shard = some shard → shard.shardId = entry.shardId)
    (htakes : (node.replicas entry.shardId).takes entry = false) :
    ∃ e, e ≠ .crash ∧ (prepareRequest entry).handle none node = (.error e, node) := by
  refine refuses_entry hmine htakes fun disk shard e he => ?_
  rw [lift_ok_bind hvalid, prepare, read_bind]
  simp only [he]
  rfl

theorem commit_refused (hvalid : entry.validate = .ok ()) (hmine : ∀ shard,
      (node.replicas entry.shardId).shard = some shard → shard.shardId = entry.shardId)
    (htakes : (node.replicas entry.shardId).takes entry = false) :
    ∃ e, e ≠ .crash ∧ (commitRequest entry).handle none node = (.error e, node) := by
  refine refuses_entry hmine htakes fun disk shard e he => ?_
  rw [lift_ok_bind hvalid, commit, read_bind]
  simp only [he]
  rfl

end

/-! ## Loops over the replicas -/

/-- What a loop over some nodes leaves of the others. -/
structure Visited (world reached : World) (names : List String) : Prop where
  metadata : reached.metadata = world.metadata
  faults : reached.faults = world.faults
  closed : reached.closed = world.closed
  others : ∀ name, name ∉ names → reached.nodes name = world.nodes name
  alive : ∀ name, (reached.nodes name).alive = (world.nodes name).alive
  partitioned : ∀ name, (reached.nodes name).partitioned = (world.nodes name).partitioned

/-- One turn of such a loop. -/
structure Visit (world reached : World) (name : String) (P : Node → Prop) : Prop where
  metadata : reached.metadata = world.metadata
  faults : reached.faults = world.faults
  closed : reached.closed = world.closed
  others : ∀ other, other ≠ name → reached.nodes other = world.nodes other
  alive : (reached.nodes name).alive = (world.nodes name).alive
  partitioned : (reached.nodes name).partitioned = (world.nodes name).partitioned
  left : P (reached.nodes name)

theorem visit_set_node {world : World} {name : String} {node : Node}
    {note : History → History} {P : Node → Prop}
    (halive : node.alive = (world.nodes name).alive)
    (hpartitioned : node.partitioned = (world.nodes name).partitioned) (hleft : P node) :
    Visit world ((world.note note).setNode name node) name P := by
  have hnode : ((world.note note).setNode name node).nodes name = node := set_node_nodes _ _ _
  refine ⟨rfl, rfl, rfl, fun other hother => ?_, ?_, ?_, ?_⟩
  · simp [World.setNode, World.note, hother]
  · rw [hnode, halive]
  · rw [hnode, hpartitioned]
  · rw [hnode]
    exact hleft

theorem attempt_visit {α β : Type} {world : World} {name : String} {request : Request α}
    {result : Except Error α} {node : Node} {P : Node → Prop} (f : Option α → β)
    (hfaults : world.faults = []) (halive : (world.nodes name).alive = true)
    (hreachable : (world.nodes name).partitioned = false)
    (hhandle : request.handle none (world.nodes name) = (result, node))
    (hresult : result ≠ .error .crash) (hnode : node.alive = (world.nodes name).alive)
    (hpartitioned : node.partitioned = (world.nodes name).partitioned) (hleft : P node) :
    ∃ left, (attempt (rpc name request) >>= fun reply => pure (f reply)) world =
        (.ok (f result.toOption), left) ∧ Visit world left name P :=
  ⟨_, bind_of_ok (attempt_rpc_calm hfaults halive hreachable hhandle hresult),
    visit_set_node hnode hpartitioned hleft⟩

section

variable {world : World} {names : List String}

/-- One more turn of a loop. -/
theorem Visited.next {before : List String} {name : String} {reached left : World}
    {P : String → Node → Prop} (h : Visited world reached before)
    (hleft : ∀ other ∈ before, P other (reached.nodes other)) (hname : name ∉ before)
    (hvisit : Visit reached left name (P name)) :
    Visited world left (before ++ [name]) ∧ ∀ other ∈ before ++ [name], P other (left.nodes other) := by
  have hsame : ∀ other, other ≠ name → left.nodes other = reached.nodes other := hvisit.others
  refine ⟨⟨hvisit.metadata.trans h.metadata, hvisit.faults.trans h.faults,
    hvisit.closed.trans h.closed, fun other hother => ?_, fun other => ?_, fun other => ?_⟩,
    fun other hother => ?_⟩
  · simp only [mem_append, mem_singleton, not_or] at hother
    exact (hsame other hother.2).trans (h.others other hother.1)
  · by_cases heq : other = name
    · rw [heq, hvisit.alive, h.alive]
    · rw [hsame other heq, h.alive]
  · by_cases heq : other = name
    · rw [heq, hvisit.partitioned, h.partitioned]
    · rw [hsame other heq, h.partitioned]
  · rcases mem_append.1 hother with hmem | hmem
    · rw [hsame other fun heq => hname (heq ▸ hmem)]
      exact hleft other hmem
    · rw [mem_singleton.1 hmem]
      exact hvisit.left

theorem wp_collect_visited {body : String → ClusterM (Option String)} (keep : String → Bool)
    (P : String → Node → Prop) {E : Error → World → Prop} (hnodup : names.Nodup)
    (hbody : ∀ name ∈ names, ∀ reached, reached.faults = world.faults →
      reached.nodes name = world.nodes name → ∃ left,
        body name reached = (.ok (if keep name = true then some name else none), left) ∧
          Visit reached left name (P name)) :
    wp (collect names body) (fun kept reached => kept = names.filter keep ∧
      Visited world reached names ∧ ∀ name ∈ names, P name (reached.nodes name)) E world := by
  refine wp_collect (fun before kept reached => kept = before.filter keep ∧
    Visited world reached before ∧ ∀ name ∈ before, P name (reached.nodes name)) names ?_
    ⟨rfl, ⟨rfl, rfl, rfl, fun _ _ => rfl, fun _ => rfl, fun _ => rfl⟩, by simp⟩
  rintro before kept name after rfl reached ⟨rfl, hvisited, hleft⟩
  have hname : name ∉ before := by
    intro hmem
    exact (nodup_append.1 hnodup).2.2 name hmem name (by simp) rfl
  obtain ⟨left, hturn, hvisit⟩ := hbody name (by simp) reached hvisited.faults
    (hvisited.others name hname)
  refine wp_of_ok hturn ⟨?_, hvisited.next hleft hname hvisit⟩
  cases hkeep : keep name <;> simp [hkeep]

theorem wp_for_each_visited {body : String → ClusterM Unit} {P : String → Node → Prop}
    {E : Error → World → Prop} (hnodup : names.Nodup)
    (hbody : ∀ name ∈ names, ∀ reached, reached.metadata = world.metadata →
      reached.faults = world.faults → reached.nodes name = world.nodes name →
      ∃ left, body name reached = (.ok (), left) ∧ Visit reached left name (P name)) :
    wp (forEach names body) (fun _ reached => Visited world reached names ∧
      ∀ name ∈ names, P name (reached.nodes name)) E world := by
  refine wp_for_each (fun before reached => Visited world reached before ∧
    ∀ name ∈ before, P name (reached.nodes name)) names ?_
    ⟨⟨rfl, rfl, rfl, fun _ _ => rfl, fun _ => rfl, fun _ => rfl⟩, by simp⟩
  rintro before name after rfl reached ⟨hvisited, hleft⟩
  have hname : name ∉ before := by
    intro hmem
    exact (nodup_append.1 hnodup).2.2 name hmem name (by simp) rfl
  obtain ⟨left, hturn, hvisit⟩ := hbody name (by simp) reached hvisited.metadata hvisited.faults
    (hvisited.others name hname)
  exact wp_of_ok hturn (hvisited.next hleft hname hvisit)

end

/-! ## Elections -/

section

variable {world : World} {shardId : Nat} {name : String}

/-- The status of a reachable replica is that of its open shard. -/
theorem attempt_status_calm (h : Calm world shardId)
    (hname : name ∈ (world.metadata.shards shardId).replicas) :
    attempt (status name shardId) world =
      (.ok ((world.replica name shardId).shard.map ReplicaShard.state), world) := by
  obtain ⟨halive, hreachable⟩ := h.reachable name hname
  have hsame : (world.note ((statusRequest shardId).note (world.nodes name))).setNode name
      (world.nodes name) = world := set_node_self world name
  cases hshard : (world.replica name shardId).shard with
  | none =>
      have hhandle : (statusRequest shardId).handle none (world.nodes name) =
          (.error (.protocol "replica does not own requested shard"), world.nodes name) := by
        simp only [statusRequest, readRequest]
        rw [show ((world.nodes name).replicas shardId).shard = none from hshard]
      have hattempt := attempt_rpc_calm h.faults halive hreachable hhandle (by simp)
      rwa [hsame] at hattempt
  | some shard =>
      have hhandle : (statusRequest shardId).handle none (world.nodes name) =
          (.ok shard.state, world.nodes name) := by
        simp only [statusRequest, readRequest]
        rw [show ((world.nodes name).replicas shardId).shard = some shard from hshard]
        rfl
      have hattempt := attempt_rpc_calm h.faults halive hreachable hhandle (by simp)
      rwa [hsame] at hattempt

/-- The candidates among some nodes: those that have the shard open. -/
def World.candidatesOf (world : World) (shardId : Nat) (names : List String) :
    List (Nat × String) :=
  names.filterMap fun name => (world.replica name shardId).shard.map fun shard =>
    (shard.state.appliedIndex, name)

/-- The status loop of an election changes nothing. -/
theorem candidates_calm (h : Calm world shardId) {names : List String}
    (hnames : names ⊆ (world.metadata.shards shardId).replicas) :
    candidates shardId names world = (.ok (world.candidatesOf shardId names), world) := by
  induction names with
  | nil => rfl
  | cons name names ih =>
      have hrest := ih fun _ hmem => hnames (mem_cons_of_mem _ hmem)
      have hstatus := attempt_status_calm h (hnames mem_cons_self)
      have hturn : (do
          let state ← attempt (status name shardId)
          pure (state.map fun state => (state.appliedIndex, name)) : ClusterM _) world =
          (.ok ((world.replica name shardId).shard.map fun shard =>
            (shard.state.appliedIndex, name)), world) := by
        rw [bind_of_ok hstatus, Option.map_map]
        rfl
      rw [candidates, collect, bind_of_ok hturn]
      rw [candidates] at hrest
      rw [bind_of_ok hrest]
      cases hshard : (world.replica name shardId).shard <;>
        simp [World.candidatesOf, hshard] <;> rfl

theorem candidates_of_names (names : List String) :
    (world.candidatesOf shardId names).map Prod.snd = names.filter (world.loaded shardId) := by
  induction names with
  | nil => rfl
  | cons name names ih =>
      unfold World.candidatesOf at ih ⊢
      cases hshard : (world.replica name shardId).shard <;>
        simp [World.loaded, hshard, ih]

end

/-- What an election leaves: every replica that has the shard open is current, and one of them
leads. -/
structure Elected (world after : World) (shardId : Nat) : Prop where
  metadata : ∃ leader ∈ (world.metadata.shards shardId).replicas,
    world.loaded shardId leader = true ∧
      after.metadata = world.metadata.edit (.elect shardId leader)
  faults : after.faults = world.faults
  closed : after.closed = world.closed
  alive : ∀ name, (after.nodes name).alive = (world.nodes name).alive
  partitioned : ∀ name, (after.nodes name).partitioned = (world.nodes name).partitioned
  current : ∀ name ∈ (world.metadata.shards shardId).replicas,
    after.current shardId name = world.loaded shardId name

section

variable [FloatRepr] {world : World} {shardId : Nat} {name : String}

theorem configure_replica_calm {term placementEpoch : Nat}
    (hplacement : (world.metadata.shards shardId).term = term ∧
      (world.metadata.shards shardId).placementEpoch = placementEpoch)
    (hfaults : world.faults = []) (halive : (world.nodes name).alive = true)
    (hreachable : (world.nodes name).partitioned = false) {shard : ReplicaShard}
    (hshard : (world.replica name shardId).shard = some shard) (hterm : shard.state.term ≤ term)
    (hepoch : shard.state.placementEpoch ≤ placementEpoch) :
    ∃ left, configureReplica shardId name world = (.ok (), left) ∧
      Visit world left name fun node => ∃ shard, (node.replicas shardId).shard = some shard ∧
        shard.state.term = term ∧ shard.state.placementEpoch = placementEpoch := by
  obtain ⟨rfl, rfl⟩ := hplacement
  have hhandle := @configure_handle _ shard world.metadata.dimension (world.nodes name) shardId
    _ _ hshard hterm hepoch
  have hrpc := rpc_calm hfaults halive hreachable hhandle (by simp)
  simp only [configureReplica, read_bind]
  refine ⟨_, (bind_of_ok hrpc).trans rfl, visit_set_node rfl rfl ?_⟩
  exact ⟨{ shard with state := ⟨_, _, shard.state.appliedIndex⟩ }, by simp [Node.setReplica],
    rfl, rfl⟩

/-- An election among reachable replicas fails only without a quorum that has the shard open. -/
theorem wp_elect_calm (hlive : Live world) (hcalm : Calm world shardId)
    (hknown : shardId < world.metadata.shardCount) :
    wp (electLeader shardId)
      (fun _ w => world.QuorumOf shardId (world.loaded shardId) ∧ Elected world w shardId)
      (fun _ _ => ¬ world.QuorumOf shardId (world.loaded shardId)) world := by
  have hplaced := hlive.valid.placed shardId hknown
  have hfound := candidates_calm hcalm fun _ hmem => hmem
  have hnames := @candidates_of_names world shardId (world.metadata.shards shardId).replicas
  have hlength := congrArg List.length hnames
  rw [length_map] at hlength
  rw [electLeader, wp_bind, wp_read, wp_bind]
  refine wp_of_ok hfound ?_
  simp only [wp_bind, wp_ensure]
  refine ⟨fun hquorum => ?_, fun hquorum => by rwa [World.QuorumOf, ← hlength]⟩
  replace hquorum : world.QuorumOf shardId (world.loaded shardId) := by
    rwa [World.QuorumOf, ← hlength]
  generalize hranked : ((world.candidatesOf shardId (world.metadata.shards shardId).replicas)
    |>.insertionSort (ranksBefore · ·)).map Prod.snd = ranked
  have hperm : ranked.Perm ((world.metadata.shards shardId).replicas.filter
      (world.loaded shardId)) := by
    rw [← hranked, ← hnames]
    exact (perm_insertionSort _ _).map Prod.snd
  have hmem : ∀ other, other ∈ ranked ↔ other ∈ (world.metadata.shards shardId).replicas ∧
      world.loaded shardId other = true := fun other => by
    rw [hperm.mem_iff, mem_filter]
  have hleader : ranked.headD "" ∈ ranked := by
    cases ranked with
    | cons first rest => simp
    | nil =>
        rw [World.QuorumOf, ← hperm.length_eq] at hquorum
        simp [ShardPlacement.quorum] at hquorum
  obtain ⟨hreplica, hloaded⟩ := (hmem _).1 hleader
  have hvalid := ClusterMetadata.validate_ok.2
    (edited_of_edits hlive (.elect hreplica)).valid
  refine wp_of_ok (publish_calm hcalm.faults hvalid) ?_
  have hplacement : ((world.metadata.edit (.elect shardId (ranked.headD ""))).shards
      shardId).term = (world.metadata.shards shardId).term + 1 ∧
      ((world.metadata.edit (.elect shardId (ranked.headD ""))).shards
        shardId).placementEpoch = (world.metadata.shards shardId).placementEpoch + 1 := by
    simp [ClusterMetadata.edit, ClusterMetadata.editShard]
  refine wp_mono (wp_for_each_visited (P := fun _ node => ∃ shard,
      (node.replicas shardId).shard = some shard ∧
      shard.state.term = (world.metadata.shards shardId).term + 1 ∧
      shard.state.placementEpoch = (world.metadata.shards shardId).placementEpoch + 1)
    (hperm.nodup_iff.2 (hplaced.nodup.filter _)) ?_) ?_ fun _ _ h => h
  · intro other hother reached hmetadata hfaults hnode
    obtain ⟨hin, hopen⟩ := (hmem other).1 hother
    obtain ⟨shard, hshard⟩ := Option.isSome_iff_exists.1 hopen
    obtain ⟨halive, hreachable⟩ := hcalm.reachable other hin
    have hbehind := ((hlive.traced other shardId).shard shard hshard).state
    have hepoch := hbehind.epoch_le
    simp only [ShardPlacement.epochOf, if_pos hin] at hepoch
    refine configure_replica_calm ?_ (hfaults.trans hcalm.faults) ?_ ?_ ?_
      (Nat.le_succ_of_le hbehind.term_le) (Nat.le_succ_of_le hepoch)
    · rw [hmetadata]
      exact hplacement
    · rw [hnode]
      exact halive
    · rw [hnode]
      exact hreachable
    · rw [World.replica, hnode]
      exact hshard
  · rintro _ after ⟨hvisited, hconfigured⟩
    refine ⟨hquorum, ⟨_, hreplica, hloaded, hvisited.metadata⟩, hvisited.faults,
      hvisited.closed, hvisited.alive, hvisited.partitioned, fun other hother => ?_⟩
    have hmetadata : after.metadata = world.metadata.edit (.elect shardId (ranked.headD "")) :=
      hvisited.metadata
    by_cases hopen : world.loaded shardId other = true
    · obtain ⟨shard, hshard, hterm, hepoch⟩ := hconfigured other ((hmem other).2 ⟨hother, hopen⟩)
      rw [hopen, World.current, hmetadata, hplacement.1, hplacement.2]
      rw [World.replica, hshard]
      simp [hterm, hepoch]
    · have hsame : after.nodes other = world.nodes other :=
        hvisited.others other fun hin => hopen ((hmem other).1 hin).2
      have hnone : (world.replica other shardId).shard = none := by
        simpa [World.loaded] using hopen
      rw [Bool.not_eq_true] at hopen
      rw [hopen, World.current, World.replica, hsame]
      rw [show ((world.nodes other).replicas shardId).shard = none from hnone]
      rfl

end

/-! ## A write on a current leader -/

section

variable [FloatRepr]

omit [FloatRepr] in
theorem validate_without_dimension {mutation : Json} {dimension : Nat}
    (h : validateReplicatedMutation mutation (some dimension) = .ok ()) :
    validateReplicatedMutation mutation none = .ok () := by
  unfold validateReplicatedMutation at h ⊢
  split at h
  · exact h
  · simp only [validateUpsert, bind_ok, require_ok, exists_unit] at h ⊢
    obtain ⟨hkeys, id, hid, vector, hvector, hne, -, hrest⟩ := h
    exact ⟨hkeys, id, hid, vector, hvector, hne, by simp, hrest⟩
  · exact h

variable {world : World} {shardId : Nat} {requestId : RequestId} {mutation : Json}

/-- What a fresh write needs of the cluster, besides replicas that take part. -/
structure Writable (world : World) (requestId : RequestId) (mutation : Json) (shardId : Nat) :
    Prop where
  live : Live world
  routed : Routed world.history
  calm : Calm world shardId
  opened : world.closed = false
  fresh : world.metadata.requestTable requestId = none
  written : mutation ∈ world.history.written
  routes : ∃ pointId, mutationId mutation = .ok pointId ∧ world.metadata.route pointId = shardId
  valid : validateReplicatedMutation mutation (some world.metadata.dimension) = .ok ()
  accepts : KernelAccepts mutation

theorem Writable.known (h : Writable world requestId mutation shardId) :
    shardId < world.metadata.shardCount := by
  obtain ⟨pointId, -, rfl⟩ := h.routes
  exact Nat.mod_lt _ h.live.valid.shardCount_pos

/-- The entry a fresh write prepares. -/
def World.nextEntry (world : World) (requestId : RequestId) (mutation : Json) (shardId : Nat) :
    ReplicatedEntry :=
  let placement := world.metadata.shards shardId
  .create shardId placement.term placement.placementEpoch (placement.lastLogIndex + 1) requestId
    mutation

theorem Writable.entry_valid (h : Writable world requestId mutation shardId) :
    (world.nextEntry requestId mutation shardId).validate = .ok () := by
  have hplaced := h.live.valid.placed shardId h.known
  simp only [ReplicatedEntry.validate, bind_ok, require_ok, exists_unit]
  exact ⟨⟨hplaced.term_pos, hplaced.epoch_pos⟩, ⟨Nat.succ_pos _, requestId.2⟩,
    validate_without_dimension h.valid, rfl⟩

/-- Every open replica has room for the next entry. -/
theorem Live.room (h : Live world) {name : String} {shard : ReplicaShard}
    (hshard : (world.replica name shardId).shard = some shard) :
    Room world.metadata.dimension (world.nextEntry requestId mutation shardId) shard := by
  have htraced := h.traced name shardId
  have hon := htraced.shard shard hshard
  have hreflects := ReplicaJournal.reflects_load hon.loads
  refine ⟨hon.shardId_eq, hon.dimension_eq, ?_, Nat.lt_succ_of_le hon.state.applied_le, ?_, ?_⟩
  · rcases hreflects.snapshot_mem with hzero | hmem
    · rw [hzero]
      exact Nat.succ_pos _
    · exact Nat.lt_succ_of_le (htraced.disk.lines _ hmem)
  · cases hentry : shard.journal.prepared[(world.nextEntry requestId mutation shardId).index]? with
    | none => rfl
    | some entry =>
        obtain ⟨hmem, hindex⟩ := hreflects.prepared_mem _ entry hentry
        have hle : entry.index ≤ (world.metadata.shards shardId).lastLogIndex :=
          (htraced.disk.lines _ hmem).2.2.1
        rw [hindex] at hle
        exact absurd hle (Nat.not_succ_le_self _)
  · intro hmem
    obtain ⟨owner, record, hrecord, rfl, hindex⟩ :=
      htraced.disk.lines _ ((hreflects.committed_iff _).1 hmem)
    obtain ⟨owned, howner, -⟩ := h.ledger.table_owned owner record hrecord
    have hle := (h.ledger.owner_le _ _ _ howner).2
    rw [hindex] at hle
    exact absurd hle (Nat.not_succ_le_self _)

/-- What the prepares of a fresh write leave. -/
structure Prepared (world after : World) (shardId : Nat) (entry : ReplicatedEntry) : Prop where
  metadata : after.metadata = world.metadata.edit (.allocate shardId)
  faults : after.faults = world.faults
  closed : after.closed = world.closed
  alive : ∀ name, (after.nodes name).alive = (world.nodes name).alive
  partitioned : ∀ name, (after.nodes name).partitioned = (world.nodes name).partitioned
  holding : ∀ name ∈ (world.metadata.shards shardId).replicas,
    world.current shardId name = true → ∃ shard,
      (after.replica name shardId).shard = some shard ∧
        Holding world.metadata.dimension entry shard
  others : ∀ name ∈ (world.metadata.shards shardId).replicas,
    world.current shardId name = false → after.nodes name = world.nodes name

/-- One prepare of a fresh write, on a replica that is current or not. -/
theorem prepare_turn_calm (h : Writable world requestId mutation shardId) {name : String}
    (hname : name ∈ (world.metadata.shards shardId).replicas) {reached : World}
    (hfaults : reached.faults = []) (hnode : reached.nodes name = world.nodes name) :
    let entry := world.nextEntry requestId mutation shardId
    ∃ left, (do
        let checksum ← attempt (sendPrepare entry name)
        pure (if checksum = some entry.mutationChecksum then some name else none) :
          ClusterM (Option String)) reached =
        (.ok (if world.current shardId name = true then some name else none), left) ∧
      Visit reached left name fun node =>
        (world.current shardId name = true → ∃ shard, (node.replicas shardId).shard = some shard ∧
          Holding world.metadata.dimension entry shard) ∧
        (world.current shardId name = false → node = world.nodes name) := by
  intro entry
  obtain ⟨halive, hreachable⟩ := h.calm.reachable name hname
  rw [← hnode] at halive hreachable
  have hvalid := h.entry_valid
  have hsend : sendPrepare entry name = rpc name (prepareRequest entry) := lift_ok_bind hvalid _
  have htakes : (world.replica name shardId).takes entry = world.current shardId name := rfl
  rw [hsend]
  by_cases hcurrent : world.current shardId name = true
  · cases hshard : (world.replica name shardId).shard with
    | none => simp [World.current, hshard] at hcurrent
    | some shard =>
        obtain ⟨hterm, hepoch⟩ : shard.state.term = entry.term ∧
            shard.state.placementEpoch = entry.placementEpoch := by
          simpa [Replica.takes, hshard] using htakes.trans hcurrent
        have hroom := @Live.room _ world shardId requestId mutation h.live name shard hshard
        have hopen : ((reached.nodes name).replicas entry.shardId).shard = some shard := by
          rw [hnode]
          exact hshard
        obtain ⟨disk, hhandle⟩ := prepare_handle hvalid h.valid hopen hroom hterm hepoch
        have hholding : Holding world.metadata.dimension entry
            { shard with journal := shard.journal.addPrepared entry } :=
          ⟨hroom.shardId_eq, hroom.dimension_eq, hroom.applied_lt,
            by simp [ReplicaJournal.addPrepared], hroom.uncommitted, hterm, hepoch⟩
        rw [if_pos hcurrent]
        obtain ⟨left, hturn, hvisit⟩ := attempt_visit (P := fun node =>
            (world.current shardId name = true → ∃ shard,
              (node.replicas shardId).shard = some shard ∧
                Holding world.metadata.dimension entry shard) ∧
            (world.current shardId name = false → node = world.nodes name))
          (fun checksum => if checksum = some entry.mutationChecksum then some name else none)
          hfaults halive hreachable hhandle (by simp) rfl rfl
          ⟨fun _ => ⟨_, congrArg Replica.shard (set_replica_replicas _ _ _), hholding⟩,
            by simp [hcurrent]⟩
        exact ⟨left, hturn.trans (by simp [Except.toOption, entry]), hvisit⟩
  · rw [Bool.not_eq_true] at hcurrent
    have hmine : ∀ shard, ((reached.nodes name).replicas entry.shardId).shard = some shard →
        shard.shardId = entry.shardId := by
      rw [hnode]
      exact fun shard hshard => ((h.live.traced name shardId).shard shard hshard).shardId_eq
    obtain ⟨e, he, hhandle⟩ := prepare_refused hvalid hmine (by
      rw [hnode]
      exact htakes.trans hcurrent)
    rw [if_neg (by simp [hcurrent])]
    exact attempt_visit
      (fun checksum => if checksum = some entry.mutationChecksum then some name else none)
      hfaults halive hreachable hhandle (by simpa using he) rfl rfl
      ⟨by simp [hcurrent], fun _ => hnode⟩

end

section

variable [FloatRepr] {world : World} {shardId : Nat} {requestId : RequestId} {mutation : Json}

/-- The prepares of a fresh write reach the current replicas. -/
theorem wp_prepare_next_calm (h : Writable world requestId mutation shardId) :
    wp (prepareNext requestId mutation shardId)
      (fun result w => result.1 = world.nextEntry requestId mutation shardId ∧
        result.2 = (world.metadata.shards shardId).replicas.filter (world.current shardId) ∧
        Prepared world w shardId (world.nextEntry requestId mutation shardId))
      (fun _ _ => False) world := by
  obtain ⟨pointId, hid, hroute⟩ := h.routes
  have hvalid := ClusterMetadata.validate_ok.2 (edited_of_edits h.live
    (@Edits.allocate _ world shardId requestId mutation pointId h.written hid hroute)).valid
  have hplacement : (world.metadata.edit (.allocate shardId)).shards shardId =
      { world.metadata.shards shardId with
        lastLogIndex := (world.metadata.shards shardId).lastLogIndex + 1 } := by
    simp [ClusterMetadata.edit, ClusterMetadata.editShard]
  have hpublish := @publish_calm world (.allocate shardId) (fun history => history.own shardId
    ((world.metadata.shards shardId).lastLogIndex + 1) requestId mutation) h.calm.faults hvalid
  rw [prepareNext, wp_bind, wp_read, wp_bind]
  refine wp_of_ok hpublish ?_
  simp only [wp_bind, wp_read, wp_pure, World.note, World.publishing, hplacement, prepareOn]
  refine wp_mono (wp_collect_visited (world.current shardId) (fun name node =>
      (world.current shardId name = true → ∃ shard, (node.replicas shardId).shard = some shard ∧
        Holding world.metadata.dimension (world.nextEntry requestId mutation shardId) shard) ∧
      (world.current shardId name = false → node = world.nodes name))
    (h.live.valid.placed shardId h.known).nodup ?_) ?_ fun _ _ he => he
  · intro name hname reached hfaults hnode
    exact prepare_turn_calm h hname (hfaults.trans h.calm.faults) hnode
  · rintro prepared after ⟨rfl, hvisited, hleft⟩
    refine ⟨rfl, rfl, hvisited.metadata, hvisited.faults, hvisited.closed,
      hvisited.alive, hvisited.partitioned, fun name hname => (hleft name hname).1,
      fun name hname => (hleft name hname).2⟩

/-- The commits of a fresh write reach the replicas that hold its entry. -/
theorem wp_commit_on_calm (h : Writable world requestId mutation shardId) {sent : World}
    (hsent : Prepared world sent shardId (world.nextEntry requestId mutation shardId))
    {recorded : World} (hnodes : recorded.nodes = sent.nodes) (hfaults : recorded.faults = []) :
    wp (commitOn (world.nextEntry requestId mutation shardId)
        (world.metadata.shards shardId).replicas)
      (fun committed w => committed =
          (world.metadata.shards shardId).replicas.filter (world.current shardId) ∧
        w.metadata = recorded.metadata ∧ w.faults = [])
      (fun _ _ => False) recorded := by
  have hvalid := h.entry_valid
  refine wp_mono (wp_collect_visited (world.current shardId) (fun _ _ => True)
    (h.live.valid.placed shardId h.known).nodup ?_) ?_ fun _ _ he => he
  · intro name hname reached hquiet hnode
    rw [hnodes] at hnode
    obtain ⟨halive, hreachable⟩ := h.calm.reachable name hname
    rw [← hsent.alive, ← hnode] at halive
    rw [← hsent.partitioned, ← hnode] at hreachable
    rw [hfaults] at hquiet
    have hsend : sendCommit (world.nextEntry requestId mutation shardId) name =
        rpc name (commitRequest (world.nextEntry requestId mutation shardId)) :=
      lift_ok_bind hvalid _
    rw [hsend]
    by_cases hcurrent : world.current shardId name = true
    · obtain ⟨shard, hshard, hholding⟩ := hsent.holding name hname hcurrent
      obtain ⟨applied, replica, hhandle⟩ := commit_handle hvalid h.valid h.accepts
        (show ((reached.nodes name).replicas shardId).shard = some shard by
          rw [hnode]
          exact hshard) hholding
      rw [if_pos hcurrent]
      exact attempt_visit (fun applied => applied.map fun _ => name) hquiet halive hreachable
        hhandle (by simp) rfl rfl trivial
    · rw [Bool.not_eq_true] at hcurrent
      have hsame := hnode.trans (hsent.others name hname hcurrent)
      obtain ⟨e, he, hhandle⟩ := @commit_refused _ (world.nextEntry requestId mutation shardId)
        (reached.nodes name) hvalid
        (by
          rw [hsame]
          exact fun shard hshard => ((h.live.traced name shardId).shard shard hshard).shardId_eq)
        (by
          rw [hsame]
          exact hcurrent)
      rw [if_neg (by simp [hcurrent])]
      exact attempt_visit (fun applied => applied.map fun _ => name) hquiet halive hreachable
        hhandle (by simpa using he) rfl rfl trivial
  · rintro committed after ⟨rfl, hvisited, -⟩
    exact ⟨rfl, hvisited.metadata, hvisited.faults.trans hfaults⟩

omit [FloatRepr] in
theorem Prepared.placement {entry : ReplicatedEntry} {sent : World}
    (h : Prepared world sent shardId entry) : sent.metadata.shards shardId =
      { world.metadata.shards shardId with
        lastLogIndex := (world.metadata.shards shardId).lastLogIndex + 1 } := by
  simp [h.metadata, ClusterMetadata.edit, ClusterMetadata.editShard]

/-- A recorded write with a quorum of current replicas is committed. -/
theorem wp_commit_prepared_calm (h : Writable world requestId mutation shardId) {sent : World}
    (hsent : Prepared world sent shardId (world.nextEntry requestId mutation shardId))
    (hquorum : world.QuorumOf shardId (world.current shardId)) {recorded : World} {checksum : Nat}
    (hnodes : recorded.nodes = sent.nodes) (hfaults : recorded.faults = [])
    (hshards : recorded.metadata.shards = sent.metadata.shards)
    (hvalid : recorded.metadata.Valid) :
    wp (commitPrepared requestId (world.nextEntry requestId mutation shardId) checksum)
      (fun _ _ => True) (fun _ _ => False) recorded := by
  have hreplicas : (recorded.metadata.shards shardId).replicas =
      (world.metadata.shards shardId).replicas := by
    rw [hshards, hsent.placement]
  rw [commitPrepared, wp_bind, wp_read, wp_bind]
  change wp (commitOn _ (recorded.metadata.shards shardId).replicas) _ _ _
  rw [hreplicas]
  refine wp_mono (wp_commit_on_calm h hsent hnodes hfaults) ?_ fun _ _ he => he
  rintro committed reached ⟨rfl, hmetadata, hquiet⟩
  simp only [wp_bind, wp_ensure, wp_pure]
  refine ⟨fun _ => ?_, fun hmissed => hmissed ?_⟩
  · refine wp_of_ok (publish_calm hquiet (ClusterMetadata.validate_ok.2 ?_)) trivial
    rw [hmetadata]
    refine ClusterMetadata.valid_edit hvalid ?_
    change _ ≤ (recorded.metadata.shards shardId).lastLogIndex
    rw [hshards, hsent.placement]
    exact le_rfl
  · have hsame : (recorded.metadata.shards shardId).quorum =
        (world.metadata.shards shardId).quorum := by
      rw [ShardPlacement.quorum, hreplicas, ShardPlacement.quorum]
    exact hsame.le.trans hquorum

/-- A prepared write succeeds exactly when the current replicas make a quorum. -/
theorem wp_commit_fresh_calm (h : Writable world requestId mutation shardId) {sent : World}
    (hsent : Prepared world sent shardId (world.nextEntry requestId mutation shardId)) :
    wp (commitFresh requestId (world.nextEntry requestId mutation shardId)
        ((world.metadata.shards shardId).replicas.filter (world.current shardId)))
      (fun _ _ => world.QuorumOf shardId (world.current shardId))
      (fun _ _ => ¬ world.QuorumOf shardId (world.current shardId)) sent := by
  have hfaults : sent.faults = [] := hsent.faults.trans h.calm.faults
  have hquorum : (sent.metadata.shards shardId).quorum =
      (world.metadata.shards shardId).quorum := by
    rw [ShardPlacement.quorum, hsent.placement, ShardPlacement.quorum]
  have hvalid : sent.metadata.Valid := by
    obtain ⟨pointId, hid, hroute⟩ := h.routes
    rw [hsent.metadata]
    exact (edited_of_edits h.live (@Edits.allocate _ world shardId requestId mutation pointId
      h.written hid hroute)).valid
  simp only [commitFresh, wp_bind, wp_read, wp_ensure]
  refine ⟨fun hreached => ?_, fun hmissed hready => hmissed (hquorum.le.trans hready)⟩
  have hready : world.QuorumOf shardId (world.current shardId) := hquorum.symm.le.trans hreached
  have hrecorded : (sent.metadata.edit (.recordPrepared requestId ⟨shardId,
      (world.metadata.shards shardId).term, (world.metadata.shards shardId).lastLogIndex + 1,
      checksumOf mutation, .prepared⟩)).Valid :=
    ClusterMetadata.valid_edit hvalid trivial
  refine wp_of_ok (publish_calm hfaults (ClusterMetadata.validate_ok.2 hrecorded)) ?_
  exact wp_mono (wp_commit_prepared_calm h hsent hready rfl hfaults rfl hrecorded)
    (fun _ _ _ => hready) fun _ _ he => he.elim

end

/-! ## Whole writes -/

section

variable [FloatRepr] {world after : World} {shardId : Nat} {requestId : RequestId}
  {mutation : Json}

omit [FloatRepr] in
theorem quorum_of_congr {property other : String → Bool}
    (hreplicas : (after.metadata.shards shardId).replicas =
      (world.metadata.shards shardId).replicas)
    (h : ∀ name ∈ (world.metadata.shards shardId).replicas, property name = other name) :
    after.QuorumOf shardId property ↔ world.QuorumOf shardId other := by
  rw [World.QuorumOf, World.QuorumOf, ShardPlacement.quorum, ShardPlacement.quorum, hreplicas,
    filter_congr h]

/-- A phase that keeps the replicas reachable keeps the cluster writable. -/
theorem Writable.of_acts (h : Writable world requestId mutation shardId)
    (hacts : Acts world after) (hretries : after.history.retries = world.history.retries)
    (hwritten : mutation ∈ after.history.written)
    (htable : after.metadata.requestTable = world.metadata.requestTable)
    (hcount : after.metadata.shardCount = world.metadata.shardCount)
    (hdimension : after.metadata.dimension = world.metadata.dimension)
    (hreplicas : (after.metadata.shards shardId).replicas =
      (world.metadata.shards shardId).replicas)
    (hfaults : after.faults = world.faults) (hclosed : after.closed = world.closed)
    (halive : ∀ name, (after.nodes name).alive = (world.nodes name).alive)
    (hpartitioned : ∀ name, (after.nodes name).partitioned = (world.nodes name).partitioned) :
    Writable after requestId mutation shardId := by
  have hrouted : Routed after.history := fun retry hretry => h.routed retry (hretries ▸ hretry)
  obtain ⟨pointId, hid, hroute⟩ := h.routes
  refine ⟨h.live.acts hacts hrouted, hrouted, ⟨hfaults.trans h.calm.faults, ?_⟩,
    hclosed.trans h.opened, htable ▸ h.fresh, hwritten, ⟨pointId, hid, ?_⟩, hdimension ▸ h.valid,
    h.accepts⟩
  · intro name hname
    rw [halive, hpartitioned]
    exact h.calm.reachable name (hreplicas ▸ hname)
  · rw [ClusterMetadata.route, hcount]
    exact hroute

theorem Writable.elected (h : Writable world requestId mutation shardId)
    (hkeeps : Keeps world after) (helected : Elected world after shardId) :
    Writable after requestId mutation shardId ∧
      after.current shardId (after.metadata.shards shardId).leader = true ∧
      (after.QuorumOf shardId (after.current shardId) ↔
        world.QuorumOf shardId (world.loaded shardId)) := by
  obtain ⟨leader, hmember, hloaded, hmetadata⟩ := helected.metadata
  have hplacement : (after.metadata.shards shardId).replicas =
      (world.metadata.shards shardId).replicas ∧
      (after.metadata.shards shardId).leader = leader := by
    simp [hmetadata, ClusterMetadata.edit, ClusterMetadata.editShard]
  refine ⟨h.of_acts hkeeps.acts hkeeps.retries (hkeeps.written ▸ h.written) hkeeps.table
    hkeeps.shardCount (by rw [hmetadata]; rfl) hplacement.1 helected.faults helected.closed
    helected.alive helected.partitioned, ?_, quorum_of_congr hplacement.1 helected.current⟩
  rw [hplacement.2, helected.current leader hmember, hloaded]

/-- After the prepares the same replicas have the shard open. -/
theorem Writable.prepared (h : Writable world requestId mutation shardId)
    {entry : ReplicatedEntry} (hfresh : Fresh world after requestId mutation shardId entry)
    (hprepared : Prepared world after shardId (world.nextEntry requestId mutation shardId)) :
    Writable after requestId mutation shardId ∧
      (after.QuorumOf shardId (after.loaded shardId) ↔
        world.QuorumOf shardId (world.loaded shardId)) := by
  have hreplicas : (after.metadata.shards shardId).replicas =
      (world.metadata.shards shardId).replicas := by
    rw [hprepared.placement]
  refine ⟨h.of_acts hfresh.acts hfresh.retries hfresh.written hfresh.table
    (by rw [hprepared.metadata]; rfl) (by rw [hprepared.metadata]; rfl) hreplicas
    hprepared.faults hprepared.closed hprepared.alive hprepared.partitioned,
    quorum_of_congr hreplicas fun name hname => ?_⟩
  by_cases hcurrent : world.current shardId name = true
  · obtain ⟨shard, hshard, -⟩ := hprepared.holding name hname hcurrent
    have hloaded : world.loaded shardId name = true := by
      unfold World.loaded
      unfold World.current at hcurrent
      cases hopen : (world.replica name shardId).shard with
      | none => simp [hopen] at hcurrent
      | some _ => rfl
    rw [hloaded, World.loaded, hshard]
    rfl
  · rw [World.loaded, World.loaded, World.replica, World.replica,
      hprepared.others name hname (by simpa using hcurrent)]

theorem wp_replicate_current (h : Writable world requestId mutation shardId)
    (hleader : world.current shardId (world.metadata.shards shardId).leader = true)
    {leaderFailed : Nat → ClusterM CommitResult} :
    wp (do
        let (entry, prepared) ← prepareNext requestId mutation shardId
        let world ← read
        if (world.metadata.shards shardId).leader ∈ prepared then
          commitFresh requestId entry prepared
        else leaderFailed shardId)
      (fun _ _ => world.QuorumOf shardId (world.current shardId))
      (fun _ _ => ¬ world.QuorumOf shardId (world.current shardId)) world := by
  rw [wp_bind]
  refine wp_mono (wp_prepare_next_calm h) ?_ fun _ _ he => he.elim
  rintro ⟨entry, prepared⟩ sent ⟨rfl, rfl, hsent⟩
  simp only [wp_bind, wp_read, wp_ite]
  refine ⟨fun _ => wp_commit_fresh_calm h hsent, fun hmissed => absurd ?_ hmissed⟩
  rw [hsent.placement]
  exact mem_filter.2 ⟨(h.live.valid.placed shardId h.known).leader_mem, hleader⟩

theorem ensure_leader_calm (h : Writable world requestId mutation shardId) :
    ensureLeader shardId world =
      if (world.replica (world.metadata.shards shardId).leader shardId).shard.map
          (·.state.term) = some (world.metadata.shards shardId).term then (.ok (), world)
      else electLeader shardId world := by
  have hstatus := attempt_status_calm h.calm (h.live.valid.placed shardId h.known).leader_mem
  rw [ensureLeader, read_bind, bind_of_ok hstatus, Option.map_map]
  simp only [Function.comp_def]
  split <;> rfl

theorem write_once_calm (h : Writable world requestId mutation shardId)
    {leaderFailed : Nat → ClusterM CommitResult} :
    writeOnce requestId mutation leaderFailed world = (do
      ensureLeader shardId
      let (entry, prepared) ← prepareNext requestId mutation shardId
      let world ← read
      if (world.metadata.shards shardId).leader ∈ prepared then
        commitFresh requestId entry prepared
      else leaderFailed shardId : ClusterM CommitResult) world := by
  obtain ⟨pointId, hid, rfl⟩ := h.routes
  have hopen : ensureOpen world = (.ok (), world) := by
    rw [ensureOpen, read_bind, ensure_of (by simp [h.opened])]
  rw [writeOnce, bind_of_ok hopen, lift_ok_bind hid, read_bind]
  simp only [h.fresh]

theorem wp_write_once_current (h : Writable world requestId mutation shardId)
    (hleader : world.current shardId (world.metadata.shards shardId).leader = true)
    {leaderFailed : Nat → ClusterM CommitResult} :
    wp (writeOnce requestId mutation leaderFailed)
      (fun _ _ => world.QuorumOf shardId (world.current shardId))
      (fun _ _ => ¬ world.QuorumOf shardId (world.current shardId)) world := by
  have hensure := ensure_leader_calm h
  have hterm : (world.replica (world.metadata.shards shardId).leader shardId).shard.map
      (·.state.term) = some (world.metadata.shards shardId).term := by
    unfold World.current at hleader
    cases hopen : (world.replica (world.metadata.shards shardId).leader shardId).shard with
    | none => simp [hopen] at hleader
    | some shard =>
        simp only [hopen, Option.any_some, decide_eq_true_eq] at hleader
        simp [hleader.1]
  rw [if_pos hterm] at hensure
  rw [wp, write_once_calm h, bind_of_ok hensure]
  exact wp_replicate_current h hleader

theorem wp_elect_then {x : ClusterM CommitResult} (h : Writable world requestId mutation shardId)
    (hx : ∀ after, Writable after requestId mutation shardId →
      after.current shardId (after.metadata.shards shardId).leader = true →
      wp x (fun _ _ => after.QuorumOf shardId (after.current shardId))
        (fun _ _ => ¬ after.QuorumOf shardId (after.current shardId)) after) :
    wp (do
        electLeader shardId
        x)
      (fun _ _ => world.QuorumOf shardId (world.loaded shardId))
      (fun _ _ => ¬ world.QuorumOf shardId (world.loaded shardId)) world := by
  rw [wp_bind]
  refine wp_mono (wp_and (wp_elect_calm h.live h.calm h.known) keeps_elect_leader) ?_
    fun _ _ he => he.1
  rintro _ after ⟨⟨-, helected⟩, hkeeps⟩
  obtain ⟨hwritable, hleader, hquorum⟩ := h.elected hkeeps helected
  exact wp_mono (hx after hwritable hleader) (fun _ _ hready => hquorum.1 hready)
    fun _ _ hmissed hready => hmissed (hquorum.2 hready)

/-- A write that may elect a leader succeeds exactly when enough replicas can take part. -/
theorem wp_write_retrying_calm (h : Writable world requestId mutation shardId) (retries : Nat) :
    wp (writeRetrying requestId mutation (retries + 1)) (fun _ _ => Ready world shardId)
      (fun _ _ => ¬ Ready world shardId) world := by
  have hrest : ∀ reached, Writable reached requestId mutation shardId →
      reached.current shardId (reached.metadata.shards shardId).leader = true →
      wp (writeRetrying requestId mutation retries)
        (fun _ _ => reached.QuorumOf shardId (reached.current shardId))
        (fun _ _ => ¬ reached.QuorumOf shardId (reached.current shardId)) reached := by
    intro reached hreached hleader
    cases retries <;> exact wp_write_once_current hreached hleader
  by_cases hleader : world.current shardId (world.metadata.shards shardId).leader = true
  · rw [ready_of_led hleader]
    exact wp_write_once_current h hleader
  · rw [ready_of_unled (by simpa using hleader)]
    have hensure := ensure_leader_calm h
    rw [writeRetrying, wp, write_once_calm h]
    split at hensure
    · -- The leader has the term of the placement and another epoch: it misses the prepare.
      rw [bind_of_ok hensure]
      obtain ⟨pointId, hid, hroute⟩ := h.routes
      change wp _ _ _ world
      rw [wp_bind]
      refine wp_mono (wp_and (wp_prepare_next_calm h)
        (wp_prepare_next h.written hid hroute)) ?_ fun _ _ he => he.1.elim
      rintro ⟨entry, prepared⟩ sent ⟨⟨rfl, rfl, hsent⟩, hfresh⟩
      obtain ⟨hwritable, hquorum⟩ := h.prepared hfresh hsent
      simp only [wp_bind, wp_read, wp_ite]
      refine ⟨fun hmem => ?_, fun _ => ?_⟩
      · rw [hsent.placement, mem_filter] at hmem
        exact absurd hmem.2 hleader
      · rw [← wp_bind]
        exact wp_mono (wp_elect_then hwritable hrest) (fun _ _ hready => hquorum.1 hready)
          fun _ _ hmissed hready => hmissed (hquorum.2 hready)
    · -- The leader has not opened the shard, or is in another term.
      have helect := wp_elect_then h fun after hafter hcurrent =>
        @wp_replicate_current _ after shardId requestId mutation hafter hcurrent fun shardId => do
          electLeader shardId
          writeRetrying requestId mutation retries
      rw [bind_of_eq hensure]
      exact helect

end

/-! ## Main result -/

/-- From here on nothing fails. -/
def World.withoutFaults (world : World) : World := { world with faults := [] }

/-- A write of the mutation returns a result. -/
def Succeeds [FloatRepr] (world : World) (requestId : RequestId) (mutation : Json) : Prop :=
  ∃ result after, write requestId mutation world = (.ok result, after)

/-- In every run whose retries route to the shard their request was recorded for: once every
replica of a shard runs and is reachable and no RPC fails any more, a fresh write of an accepted
mutation succeeds exactly when enough replicas can take part in it. -/
theorem write_succeeds_iff_ready [FloatRepr] {ρ : Type} (answer : PointMap → Except String ρ)
    (calls : List (ClusterCall × List Fault))
    (hrouted : Routed (World.run answer .initial calls).history)
    (hup : (World.run answer .initial calls).up = true)
    (hopen : (World.run answer .initial calls).closed = false)
    (requestId : RequestId) (mutation : Json) (pointId : Int)
    (hfresh : (World.run answer .initial calls).metadata.requestTable requestId = none)
    (hid : mutationId mutation = .ok pointId)
    (hvalid : validateReplicatedMutation mutation
      (some (World.run answer .initial calls).metadata.dimension) = .ok ())
    (haccepts : KernelAccepts mutation)
    (hcalm : Calm (World.run answer .initial calls).withoutFaults
      ((World.run answer .initial calls).metadata.route pointId)) :
    Succeeds (World.run answer .initial calls).withoutFaults requestId mutation ↔
      Ready (World.run answer .initial calls)
        ((World.run answer .initial calls).metadata.route pointId) := by
  have hinv := inv_reaches inv_initial (run_reaches calls) hrouted
  generalize World.run answer .initial calls = world at *
  have hlive : Live world.withoutFaults := by
    rcases hinv with hpristine | hlive
    · simp [hpristine.down] at hup
    · exact hlive.same rfl rfl rfl rfl rfl rfl rfl hlive.traced
  -- The write notes its mutation before anything else.
  have hwritable : Writable (world.withoutFaults.submitted mutation) requestId mutation
      (world.metadata.route pointId) :=
    ⟨hlive.submit, hrouted, ⟨rfl, hcalm.reachable⟩, hopen, hfresh, mem_cons_self,
      ⟨pointId, hid, rfl⟩, hvalid, haccepts⟩
  have hsame : Ready (world.withoutFaults.submitted mutation) (world.metadata.route pointId) ↔
      Ready world (world.metadata.route pointId) :=
    ⟨fun hready => ⟨hready.led, hready.unled⟩, fun hready => ⟨hready.led, hready.unled⟩⟩
  have hwrite := wp_write_retrying_calm hwritable 1
  rw [hsame, wp] at hwrite
  have hchecksum : payloadChecksum mutation = .ok (checksumOf mutation) :=
    payload_checksum_ok.2 ⟨convertible_of_accepts hvalid haccepts, rfl⟩
  have hadmitted : write requestId mutation world.withoutFaults =
      writeRetrying requestId mutation 2 (world.withoutFaults.submitted mutation) :=
    write_admitted hopen hid hchecksum
  rw [Succeeds, hadmitted]
  split at hwrite
  · next result after houtcome => exact ⟨fun _ => hwrite, fun _ => ⟨result, after, houtcome⟩⟩
  · next e after houtcome =>
      refine ⟨?_, fun hready => absurd hready hwrite⟩
      rintro ⟨result, other, hother⟩
      cases houtcome.symm.trans hother

theorem kernel_accepts_delete {id : Int} (h : Fits64 id) : KernelAccepts (deleteMutation id) := by
  refine ⟨fun value hvalue => ?_, fun hupsert => ?_⟩
  · cases hvalue
    exact h
  · simp [deleteMutation, Json.get?] at hupsert

theorem validate_delete (id : Int) (dimension : Option Nat) :
    validateReplicatedMutation (deleteMutation id) dimension = .ok () := rfl

/-- A leader that is partitioned while another is elected, and then healed: it stays in the old
term, and the two others make a quorum. -/
def healedCalls : List (ClusterCall × List Fault) :=
  [(.construct ⟨1, 1, 3, 3⟩, []), (.partitionNode "n0" true, []),
    (.write (sampleRequest true) (deleteMutation 1), []), (.partitionNode "n0" false, [])]

/-- The write after the partition succeeds. -/
theorem write_succeeds_iff_ready_sample :
    @Succeeds sampleFloatRepr (sampleCluster healedCalls).withoutFaults (sampleRequest false)
      (deleteMutation 1) := by
  have hretries : (sampleCluster healedCalls).history.retries.length = 0 := by decide +kernel
  have hrouted : Routed (sampleCluster healedCalls).history := by
    intro retry hretry
    rw [length_eq_zero_iff.1 hretries] at hretry
    cases hretry
  have hup : (sampleCluster healedCalls).up = true := by decide +kernel
  have hopen : (sampleCluster healedCalls).closed = false := by decide +kernel
  have hfresh : (sampleCluster healedCalls).metadata.requestTable (sampleRequest false) = none := by
    decide +kernel
  have hcalm : Calm (sampleCluster healedCalls).withoutFaults
      ((sampleCluster healedCalls).metadata.route 1) := by
    refine ⟨rfl, ?_⟩
    decide +kernel
  have hready : Ready (sampleCluster healedCalls)
      ((sampleCluster healedCalls).metadata.route 1) := by
    refine ⟨fun _ => ?_, fun _ => ?_⟩ <;> unfold World.QuorumOf <;> decide +kernel
  unfold sampleCluster at hrouted hup hopen hfresh hcalm hready ⊢
  exact (@write_succeeds_iff_ready sampleFloatRepr Unit (fun _ => .ok ()) healedCalls hrouted hup
    hopen (sampleRequest false) (deleteMutation 1) 1 hfresh rfl (validate_delete 1 _)
    (kernel_accepts_delete (by decide)) hcalm).2 hready

/-- As before, but the configuration of one of the two voters by the election is lost. -/
def staleCalls : List (ClusterCall × List Fault) :=
  [(.construct ⟨1, 1, 3, 3⟩, []), (.partitionNode "n0" true, []),
    (.write (sampleRequest true) (deleteMutation 1),
      [.none, .none, .none, .none, .none, .none, .requestLost]),
    (.partitionNode "n0" false, [])]

/-- Every replica runs and is reachable and nothing fails, yet a fresh write of an accepted
mutation raises: the new leader is the only current replica, and nothing brings the others up
to date. -/
theorem write_fails_on_stale_replicas :
    Calm (sampleCluster staleCalls).withoutFaults
        ((sampleCluster staleCalls).metadata.route 1) ∧
      (sampleCluster staleCalls).metadata.requestTable (sampleRequest false) = none ∧
      validateReplicatedMutation (deleteMutation 1)
        (some (sampleCluster staleCalls).metadata.dimension) = .ok () ∧
      KernelAccepts (deleteMutation 1) ∧
      ¬ @Succeeds sampleFloatRepr (sampleCluster staleCalls).withoutFaults
        (sampleRequest false) (deleteMutation 1) := by
  have hraises : (@write sampleFloatRepr (sampleRequest false) (deleteMutation 1)
      (sampleCluster staleCalls).withoutFaults).1 =
        .error (.quorumUnavailable "mutation did not reach prepare quorum") := by
    decide +kernel
  refine ⟨⟨rfl, by decide +kernel⟩, by decide +kernel, validate_delete 1 _,
    kernel_accepts_delete (by decide), ?_⟩
  rintro ⟨result, after, hwrite⟩
  rw [hwrite] at hraises
  cases hraises

end Akasha.Distributed

import Akasha.Distributed.Availability
import Akasha.Distributed.Steady

/-!
# Mutations that the validator refuses

The coordinator does not validate a mutation before it writes: the replicas do, in their prepare
step, and what they raise counts like a lost message. `rejected_write_unchanged_iff` says when a
refused mutation leaves the placements, the request table and the replicas as they were. It holds
in every run, so the module starts with what is true of a cluster without any assumption about
its retries: every leader is a replica, and every open shard has the dimension of the metadata.
-/

namespace Akasha.Distributed

open Lib Lib.Exec Relation

section

variable [FloatRepr]

/-! ## Clusters without assumptions -/

/-- Anything may stand in the files of a shard. -/
def openTrace (dimension shardId : Nat) : Trace where
  shardId := shardId
  dimension := dimension
  allowed _ := True
  states _ := True
  advances _ _ _ _ := trivial

/-- A cluster that has published metadata: leaders are replicas, and open shards have the
dimension of the metadata. -/
structure Founded (world : World) : Prop where
  published : ∃ metadata, world.published = some metadata ∧
    metadata.dimension = world.metadata.dimension
  count_pos : 0 < world.metadata.shardCount
  led : ∀ shardId < world.metadata.shardCount,
    (world.metadata.shards shardId).leader ∈ (world.metadata.shards shardId).replicas
  opened : ∀ name shardId,
    (openTrace world.metadata.dimension shardId).OnReplica (world.replica name shardId)

variable {world after : World}

theorem Founded.same (h : Founded world) (hmetadata : after.metadata = world.metadata)
    (hpublished : after.published = world.published)
    (hopened : ∀ name shardId,
      (openTrace world.metadata.dimension shardId).OnReplica (after.replica name shardId)) :
    Founded after := by
  refine ⟨?_, ?_, ?_, ?_⟩ <;> rw [hmetadata]
  · rw [hpublished]
    exact h.published
  · exact h.count_pos
  · exact h.led
  · exact hopened

theorem Founded.set_replica (h : Founded world) {name : String} {shardId : Nat}
    {replica : Replica}
    (hreplica : (openTrace world.metadata.dimension shardId).OnReplica replica) :
    Founded (world.setReplica name shardId replica) := by
  refine h.same rfl rfl fun other shard => ?_
  rw [replica_set_replica]
  split
  · next heq => exact heq.2 ▸ hreplica
  · exact h.opened other shard

theorem Founded.call (h : Founded world) {name : String} {shardId : Nat} {writes : Option Nat}
    (call : ReplicaCall) : Founded (world.callReplica name shardId writes call) := by
  refine h.set_replica (traced_call (h.opened name shardId) ?_)
  cases call with
  | configure term placementEpoch => exact fun _ _ => trivial
  | prepare entry => trivial
  | commit entry => exact ⟨trivial, trivial⟩
  | reopen => trivial

theorem Founded.deliver (h : Founded world) {name : String} {entry : ReplicatedEntry}
    {writes : Option Nat} : Founded (world.deliverCommit name entry writes) := by
  have hnoted : Founded (world.note ((commitRequest entry).note (world.nodes name))) :=
    h.same rfl rfl h.opened
  exact hnoted.call _

theorem Founded.nodes (h : Founded world) {nodes : String → Node} {up closed : Bool}
    (hnodes : ∀ name shardId,
      (nodes name).replicas shardId = ⟨(world.replica name shardId).disk, none⟩ ∨
        (nodes name).replicas shardId = world.replica name shardId) :
    Founded { world with nodes, up, closed } := by
  refine h.same rfl rfl fun name shardId => ?_
  change (openTrace world.metadata.dimension shardId).OnReplica ((nodes name).replicas shardId)
  rcases hnodes name shardId with hstopped | hsame
  · rw [hstopped]
    exact (h.opened name shardId).stop
  · rw [hsame]
    exact h.opened name shardId

theorem Founded.set_node (h : Founded world) {name : String} {node : Node}
    (hnode : ∀ shardId, node.replicas shardId = ⟨(world.replica name shardId).disk, none⟩ ∨
      node.replicas shardId = world.replica name shardId) :
    Founded (world.setNode name node) := by
  refine h.nodes fun other shardId => ?_
  by_cases hother : other = name
  · simpa [hother] using hnode shardId
  · exact .inr (by simp [hother, World.replica])

/-- A change of the metadata that keeps dimension, shards and leaders. -/
structure KeepsLeaders (metadata next : ClusterMetadata) : Prop where
  dimension : next.dimension = metadata.dimension
  shardCount : next.shardCount = metadata.shardCount
  led : ∀ shardId, (metadata.shards shardId).leader ∈ (metadata.shards shardId).replicas →
    (next.shards shardId).leader ∈ (next.shards shardId).replicas

/-- New metadata in memory, and in the file or not. -/
theorem Founded.edit (h : Founded world) {next : ClusterMetadata}
    (hnext : KeepsLeaders world.metadata next) (hmetadata : after.metadata = next)
    (hpublished : after.published = world.published ∨ after.published = some next)
    (hreplicas : ∀ name shardId, after.replica name shardId = world.replica name shardId) :
    Founded after := by
  subst hmetadata
  refine ⟨?_, ?_, ?_, ?_⟩
  · rcases hpublished with hsame | hnew
    · rw [hsame, hnext.dimension]
      exact h.published
    · exact ⟨_, hnew, rfl⟩
  · rw [hnext.shardCount]
    exact h.count_pos
  · intro shardId hshard
    rw [hnext.shardCount] at hshard
    exact hnext.led shardId (h.led shardId hshard)
  · intro name shardId
    rw [hnext.dimension, hreplicas]
    exact h.opened name shardId

omit [FloatRepr] in
theorem keeps_leaders_edit_shard {metadata : ClusterMetadata} {shardId : Nat}
    {change : ShardPlacement → ShardPlacement}
    (hchange : (metadata.shards shardId).leader ∈ (metadata.shards shardId).replicas →
      (change (metadata.shards shardId)).leader ∈ (change (metadata.shards shardId)).replicas) :
    KeepsLeaders metadata (metadata.editShard shardId change) := by
  refine ⟨rfl, rfl, fun shard hled => ?_⟩
  simp only [ClusterMetadata.editShard]
  split
  · next heq =>
      subst heq
      exact hchange hled
  · exact hled

theorem keeps_leaders_of_edits {edit : MetadataEdit} {note : History → History}
    (h : Edits world edit note) : KeepsLeaders world.metadata (world.metadata.edit edit) := by
  cases h with
  | rejoin => exact ⟨rfl, rfl, fun _ hled => hled⟩
  | elect hleader =>
      simp only [ClusterMetadata.edit]
      exact keeps_leaders_edit_shard fun _ => hleader
  | allocate =>
      simp only [ClusterMetadata.edit]
      exact keeps_leaders_edit_shard fun hled => hled
  | recordPrepared => exact ⟨rfl, rfl, fun _ hled => hled⟩
  | addReplica =>
      simp only [ClusterMetadata.edit]
      exact keeps_leaders_edit_shard fun hled => List.mem_append_left _ hled

omit [FloatRepr] in
theorem keeps_leaders_committing (metadata : ClusterMetadata) (requestId : RequestId)
    (entry : ReplicatedEntry) :
    KeepsLeaders metadata (metadata.edit (committing requestId entry)) := by
  have hkeeps : KeepsLeaders metadata (metadata.editShard entry.shardId fun placement =>
      { placement with committedIndex := max placement.committedIndex entry.index }) :=
    keeps_leaders_edit_shard fun hled => hled
  exact ⟨hkeeps.dimension, hkeeps.shardCount, hkeeps.led⟩

theorem Founded.sends (h : Founded world) {entry : ReplicatedEntry} {sent : World}
    (hsends : Sends entry world sent) : Founded sent := by
  induction hsends with
  | refl => exact h
  | tail _ hsend ih =>
      cases hsend with
      | faults faults => exact ih.same rfl rfl ih.opened
      | stop name => exact ih.set_node fun _ => .inl rfl
      | deliver name writes => exact ih.deliver

/-- Every action keeps it. -/
theorem Founded.act (h : Founded world) (hact : Act world after) : Founded after := by
  cases hact with
  | faults faults => exact h.same rfl rfl h.opened
  | shutdown => exact h.nodes fun _ _ => .inl rfl
  | stop name => exact h.set_node fun _ => .inl rfl
  | start name => exact h.set_node fun _ => .inl rfl
  | partition name enabled => exact h.set_node fun _ => .inr rfl
  | call name shardId writes _ => exact h.call _
  | relay name writes _ _ => exact h.deliver
  | install name shardId writes rows _ _ =>
      exact h.set_replica (traced_method (h.opened name shardId) fun _ hp =>
        traced_install_snapshot hp trivial trivial)
  | learn name shardId index => exact h.same rfl rfl h.opened
  | exportRows name shardId => exact h.same rfl rfl h.opened
  | serve name shardId _ _ => exact h.same rfl rfl h.opened
  | submit mutation => exact h.same rfl rfl h.opened
  | retry _ => exact h.same rfl rfl h.opened
  | answer _ _ => exact h.same rfl rfl h.opened
  | publish hedit _ =>
      exact h.edit (keeps_leaders_of_edits hedit) rfl (.inr rfl) fun _ _ => rfl
  | refuse hedit _ => exact h.edit (keeps_leaders_of_edits hedit) rfl (.inl rfl) fun _ _ => rfl
  | round _ hsends hend =>
      have hsent := h.sends hsends
      cases hend with
      | failed => exact hsent
      | published _ =>
          exact hsent.edit (keeps_leaders_committing _ _ _) rfl (.inr rfl) fun _ _ => rfl
      | refused _ =>
          exact hsent.edit (keeps_leaders_committing _ _ _) rfl (.inl rfl) fun _ _ => rfl

/-- A cluster that never published anything, or a founded one. -/
def Based (world : World) : Prop :=
  (world.published = none ∧ world.up = false ∧
    ∀ name shardId, world.replica name shardId = .initial) ∨ Founded world

theorem based_step (h : Based world) (hstep : Step world after) : Based after := by
  cases hstep with
  | act hup hact =>
      rcases h with ⟨-, hdown, -⟩ | h
      · simp [hdown] at hup
      · exact .inr (h.act hact)
  | faults faults =>
      rcases h with h | h
      · exact .inl h
      · exact .inr (h.same rfl rfl h.opened)
  | crash =>
      rcases h with ⟨hpublished, -, hreplicas⟩ | h
      · refine .inl ⟨hpublished, rfl, fun name shardId => ?_⟩
        exact congrArg (fun replica : Replica => (⟨replica.disk, none⟩ : Replica))
          (hreplicas name shardId)
      · exact .inr (h.nodes fun _ _ => .inl rfl)
  | reset options =>
      have hnodes : ∀ name shardId, (if name ∈ options.nodes then (world.nodes name).start
          else (world.nodes name).stop).replicas shardId =
            ⟨(world.replica name shardId).disk, none⟩ := by
        intro name shardId
        split <;> rfl
      rcases h with ⟨hpublished, -, hreplicas⟩ | h
      · refine .inl ⟨hpublished, rfl, fun name shardId => ?_⟩
        refine (hnodes name shardId).trans ?_
        rw [hreplicas name shardId]
        rfl
      · exact .inr (h.nodes fun name shardId => .inl (hnodes name shardId))
  | boot hstart hvalid =>
      have hvalid := ClusterMetadata.validate_ok.1 hvalid
      refine .inr ⟨⟨_, rfl, rfl⟩, hvalid.shardCount_pos,
        fun shardId hshard => (hvalid.placed shardId hshard).leader_mem, fun name shardId => ?_⟩
      rcases h with ⟨hpublished, -, hreplicas⟩ | h
      · change (openTrace _ shardId).OnReplica (world.replica name shardId)
        rw [hreplicas name shardId]
        exact traced_initial _ trivial
      · obtain ⟨metadata, hpublished, hdimension⟩ := h.published
        rw [hpublished] at hstart
        simp only [startingMetadata, bind_ok, require_ok, pure_ok] at hstart
        obtain ⟨-, -, -, -, -, -, rfl⟩ := hstart
        change (openTrace metadata.dimension shardId).OnReplica (world.replica name shardId)
        rw [hdimension]
        exact h.opened name shardId

theorem founded_of_reaches (hreaches : Reaches .initial world) (hup : world.up = true) :
    Founded world := by
  have hbased : Based world := by
    clear hup
    induction hreaches with
    | refl => exact .inl ⟨rfl, rfl, fun _ _ => rfl⟩
    | tail _ hstep ih => exact based_step ih hstep
  rcases hbased with ⟨-, hdown, -⟩ | h
  · simp [hdown] at hup
  · exact h

end

/-! ## Placements that move on -/

section

variable {world : World}

/-- The term and the length of the log of every shard. -/
def World.progress (world : World) (shardId : Nat) : Nat × Nat :=
  ((world.metadata.shards shardId).term, (world.metadata.shards shardId).lastLogIndex)

/-- The coordinator never takes a term or an index back. -/
theorem edit_advances (world : World) (edit : MetadataEdit) :
    world.progress ≤ { world with metadata := world.metadata.edit edit }.progress := by
  intro shardId
  cases edit with
  | rejoin => exact le_rfl
  | recordPrepared requestId record => exact le_rfl
  | elect shard leader =>
      simp only [World.progress, ClusterMetadata.edit, ClusterMetadata.editShard]
      split
      · exact ⟨Nat.le_succ _, le_rfl⟩
      · exact le_rfl
  | allocate shard =>
      simp only [World.progress, ClusterMetadata.edit, ClusterMetadata.editShard]
      split
      · exact ⟨le_rfl, Nat.le_succ _⟩
      · exact le_rfl
  | recordCommitted requestId record =>
      simp only [World.progress, ClusterMetadata.edit, ClusterMetadata.editShard,
        ClusterMetadata.record]
      split <;> exact le_rfl
  | addReplica shard node placementEpoch =>
      simp only [World.progress, ClusterMetadata.edit, ClusterMetadata.editShard]
      split <;> exact le_rfl

theorem progress_steady : Steady World.progress where
  same _ _ hmetadata _ _ := by rw [World.progress, World.progress, hmetadata]
  edit := edit_advances

variable [FloatRepr]

theorem leader_failed_advances (requestId : RequestId) (mutation : Json) (retries shardId : Nat) :
    Ascends World.progress (do
      electLeader shardId
      writeRetrying requestId mutation retries : ClusterM CommitResult) :=
  ascends_bind (ascends_elect_leader progress_steady shardId) fun _ =>
    ascends_write_retrying progress_steady requestId mutation retries

/-! ## Writes that go ahead -/

variable {requestId : RequestId} {mutation : Json} {shardId : Nat}

omit [FloatRepr] in
theorem publish_metadata_calm {edit : MetadataEdit} {note : History → History}
    (hfaults : world.faults = []) :
    (publish edit note world).2.metadata = world.metadata.edit edit := by
  have hfault : nextFault world = (.ok .none, world) := by
    simp [nextFault, hfaults]
  rw [publish, bind_of_ok hfault, bind_of_ok (ensure_of (by simp) _ _), update_bind, read_bind]
  cases hvalid : ({ world with metadata := world.metadata.edit edit } : World).metadata.validate with
  | error e => rfl
  | ok u => rfl

/-- The leader answers with the term of the placement. -/
def World.leads (world : World) (shardId : Nat) : Bool :=
  (world.replica (world.metadata.shards shardId).leader shardId).shard.map (·.state.term) =
    some (world.metadata.shards shardId).term

theorem ensure_leader_reachable (hcalm : Calm world shardId)
    (hleader : (world.metadata.shards shardId).leader ∈ (world.metadata.shards shardId).replicas) :
    ensureLeader shardId world =
      if world.leads shardId then (.ok (), world) else electLeader shardId world := by
  have hstatus := attempt_status_calm hcalm hleader
  rw [ensureLeader, read_bind, bind_of_ok hstatus, Option.map_map]
  simp only [World.leads, Function.comp_def, decide_eq_true_eq]
  split <;> rfl

theorem elect_reachable (hcalm : Calm world shardId) :
    ∃ ranked, electLeader shardId world = (do
      ensure ((world.metadata.shards shardId).quorum ≤
          ((world.metadata.shards shardId).replicas.filter (world.loaded shardId)).length)
        (.quorumUnavailable "cannot elect leader without replica quorum")
      publish (.elect shardId (ranked.headD "")) fun history => history
      forEach ranked (configureReplica shardId) : ClusterM Unit) world := by
  have hfound := candidates_calm hcalm fun _ hmem => hmem
  have hlength : (world.candidatesOf shardId (world.metadata.shards shardId).replicas).length =
      ((world.metadata.shards shardId).replicas.filter (world.loaded shardId)).length := by
    rw [← candidates_of_names, List.length_map]
  refine ⟨((world.candidatesOf shardId (world.metadata.shards shardId).replicas).insertionSort
    (ranksBefore · ·)).map Prod.snd, ?_⟩
  rw [electLeader, read_bind, bind_of_ok hfound, hlength]

theorem elect_without_quorum (hcalm : Calm world shardId)
    (hnot : ¬ world.QuorumOf shardId (world.loaded shardId)) :
    electLeader shardId world = (.error (.quorumUnavailable
      "cannot elect leader without replica quorum"), world) := by
  obtain ⟨ranked, helect⟩ := elect_reachable hcalm
  unfold World.QuorumOf at hnot
  rw [helect, bind_of_error (ensure_of_not hnot _ _)]

theorem elect_moves (hcalm : Calm world shardId)
    (hquorum : world.QuorumOf shardId (world.loaded shardId)) :
    world.progress shardId < (electLeader shardId world).2.progress shardId := by
  obtain ⟨ranked, helect⟩ := elect_reachable hcalm
  unfold World.QuorumOf at hquorum
  rw [helect, bind_of_ok (ensure_of hquorum _ _)]
  refine lt_of_lt_of_le ?_ (le_bind (fun _ => ascends_for_each
    (ascends_configure_replica progress_steady shardId) ranked) world shardId)
  unfold World.progress
  rw [publish_metadata_calm hcalm.faults]
  simp only [ClusterMetadata.edit, ClusterMetadata.editShard, ↓reduceIte]
  exact Prod.mk_lt_mk.2 (.inl ⟨Nat.lt_succ_self _, le_rfl⟩)

theorem prepare_next_moves (hfaults : world.faults = []) :
    world.progress shardId <
      (prepareNext requestId mutation shardId world).2.progress shardId := by
  rw [prepareNext, read_bind]
  have hrest : ∀ u : Unit, Ascends World.progress (do
      let world ← read
      let placement := world.metadata.shards shardId
      let entry := ReplicatedEntry.create shardId placement.term placement.placementEpoch
        placement.lastLogIndex requestId mutation
      let prepared ← prepareOn entry placement.replicas
      pure (entry, prepared) : ClusterM (ReplicatedEntry × List String)) := fun _ =>
    ascends_bind ascends_read fun _ => ascends_bind (ascends_prepare_on progress_steady _ _)
      fun _ => ascends_pure _
  refine lt_of_lt_of_le ?_ (le_bind hrest world shardId)
  unfold World.progress
  rw [publish_metadata_calm hfaults]
  simp only [ClusterMetadata.edit, ClusterMetadata.editShard, ↓reduceIte]
  exact Prod.mk_lt_mk.2 (.inr ⟨le_rfl, Nat.lt_succ_self _⟩)

end

/-! ## What the validator raises -/

section

variable {α β : Type}

/-- Whatever a check raises is a protocol error. -/
def RaisesProtocol (x : Except Error α) : Prop :=
  ∀ e, x = .error e → ∃ message, e = .protocol message

theorem raises_pure (a : α) : RaisesProtocol (pure a : Except Error α) :=
  fun _ h => nomatch h

theorem raises_throw (message : String) :
    RaisesProtocol (throw (.protocol message) : Except Error α) :=
  fun _ h => ⟨message, (Except.error.inj h).symm⟩

theorem raises_require (condition : Prop) [Decidable condition] (message : String) :
    RaisesProtocol (require condition (.protocol message)) := by
  unfold require
  split
  · exact raises_pure ()
  · exact raises_throw message

theorem raises_bind {x : Except Error α} {f : α → Except Error β} (hx : RaisesProtocol x)
    (hf : ∀ a, RaisesProtocol (f a)) : RaisesProtocol (x >>= f) := by
  cases x with
  | error e =>
      intro other h
      cases h
      exact hx e rfl
  | ok a => exact hf a

theorem raises_exact_int (name : String) (value : Json) : RaisesProtocol (exactInt name value) := by
  unfold exactInt
  split
  · exact raises_pure _
  · exact raises_throw _

theorem raises_exact_str (message : String) (value : Json) :
    RaisesProtocol (exactStr (.protocol message) value) := by
  unfold exactStr
  split
  · exact raises_pure _
  · exact raises_throw _

theorem raises_exact_list (message : String) (value : Json) :
    RaisesProtocol (exactList (.protocol message) value) := by
  unfold exactList
  split
  · exact raises_pure _
  · exact raises_throw _

theorem raises_payload (names : List String) (items : List Json) :
    RaisesProtocol (validatePayload names items) := by
  have htyped : ∀ kind value, RaisesProtocol (payloadValueTyped kind value) := fun kind value =>
    raises_bind (raises_require _ _) fun _ => raises_bind (raises_require _ _) fun _ =>
      raises_bind (raises_require _ _) fun _ => raises_require _ _
  have hitem : ∀ names item, RaisesProtocol (validatePayloadItem names item) := fun names item =>
    raises_bind (raises_require _ _) fun _ => raises_bind (raises_exact_str _ _) fun _ =>
      raises_bind (raises_require _ _) fun _ => raises_bind (raises_exact_str _ _) fun _ =>
        raises_bind (raises_require _ _) fun _ => raises_bind (htyped _ _) fun _ => raises_pure _
  induction items generalizing names with
  | nil => exact raises_pure ()
  | cons item items ih => exact raises_bind (hitem names item) fun name => ih _

theorem raises_sparse (terms : List Int) (items : List Json) :
    RaisesProtocol (validateSparseItems terms items) := by
  have hitem : ∀ terms item, RaisesProtocol (validateSparseItem terms item) := fun terms item =>
    raises_bind (raises_require _ _) fun _ => raises_bind (raises_exact_int _ _) fun _ =>
      raises_bind (raises_require _ _) fun _ => raises_bind (raises_require _ _) fun _ =>
        raises_pure _
  induction items generalizing terms with
  | nil => exact raises_pure ()
  | cons item items ih => exact raises_bind (hitem terms item) fun term => ih _

theorem raises_validate (mutation : Json) (dimension : Option Nat) :
    RaisesProtocol (validateReplicatedMutation mutation dimension) := by
  have hupsert : RaisesProtocol (validateUpsert mutation dimension) :=
    raises_bind (raises_exact_list _ _) fun _ => raises_bind (raises_require _ _) fun _ =>
      raises_bind (raises_require _ _) fun _ => raises_bind (raises_require _ _) fun _ =>
        raises_bind (raises_exact_list _ _) fun _ => raises_bind (raises_payload _ _) fun _ =>
          raises_bind (raises_exact_list _ _) fun _ => raises_sparse _ _
  unfold validateReplicatedMutation
  split
  · exact raises_bind (raises_require _ _) fun _ => raises_bind (raises_exact_int _ _) fun _ =>
      raises_pure _
  · exact raises_bind (raises_require _ _) fun _ => raises_bind (raises_exact_int _ _) fun _ =>
      hupsert
  · exact raises_throw _

end

/-! ## Replicas that refuse a mutation -/

section

variable [FloatRepr] {world : World} {shardId : Nat} {entry : ReplicatedEntry} {dimension : Nat}

theorem raises_entry_validate (entry : ReplicatedEntry) : RaisesProtocol entry.validate :=
  raises_bind (raises_require _ _) fun _ => raises_bind (raises_require _ _) fun _ =>
    raises_bind (raises_validate _ _) fun _ => raises_require _ _

omit [FloatRepr] in
theorem not_crash_of_raises {α : Type} {x : Except Error α} {e : Error} (h : RaisesProtocol x)
    (hx : x = .error e) : e ≠ .crash := by
  obtain ⟨message, rfl⟩ := h e hx
  simp

/-- A replica of the same dimension refuses to commit the entry of a refused mutation. -/
theorem commit_rejected {node : Node} (hmine : ∀ shard,
      (node.replicas entry.shardId).shard = some shard → shard.dimension = dimension)
    (hrejected : validateReplicatedMutation entry.mutation (some dimension) ≠ .ok ()) :
    ∃ e, e ≠ .crash ∧ (commitRequest entry).handle none node = (.error e, node) := by
  cases hshard : (node.replicas entry.shardId).shard with
  | none =>
      refine ⟨.protocol "replica does not own requested shard", by simp, ?_⟩
      simp only [commitRequest, Node.method, hshard]
  | some shard =>
      suffices hcommit : ∀ process : Process, process.shard = shard → ∃ e, e ≠ .crash ∧
          (do
            lift entry.validate
            commit entry : ShardM Nat) process = (.error e, process) by
        obtain ⟨e, he, hrun⟩ := hcommit ⟨(node.replicas entry.shardId).disk, shard, none⟩ rfl
        exact ⟨e, he, method_raised hshard hrun he⟩
      intro process hprocess
      cases hentry : entry.validate with
      | error e => exact ⟨e, not_crash_of_raises (raises_entry_validate entry) hentry, rfl⟩
      | ok u =>
          rw [lift_ok_bind rfl, commit, read_bind, hprocess]
          cases hepoch : shard.validateEntryEpoch entry with
          | error e =>
              refine ⟨e, ?_, rfl⟩
              rintro rfl
              by_cases hid : entry.shardId = shard.shardId <;>
                by_cases hterm : entry.term = shard.state.term ∧
                  entry.placementEpoch = shard.state.placementEpoch <;>
                simp [ReplicaShard.validateEntryEpoch, require, hid, hterm, bind, Except.bind]
                  at hepoch
          | ok u =>
              rw [lift_ok_bind rfl, hmine shard hshard]
              cases hmutation : validateReplicatedMutation entry.mutation (some dimension) with
              | error e =>
                  exact ⟨e, not_crash_of_raises (raises_validate _ _) hmutation, rfl⟩
              | ok u => exact absurd hmutation hrejected

/-- Nothing but the history changed. -/
structure Aside (world after : World) : Prop where
  metadata : after.metadata = world.metadata
  nodes : after.nodes = world.nodes
  faults : after.faults = world.faults

/-- No replica commits a refused mutation, and none is changed by the attempt. -/
theorem wp_commit_on_rejected (hcalm : Calm world entry.shardId)
    (hmine : ∀ name shard, (world.replica name entry.shardId).shard = some shard →
      shard.dimension = dimension)
    (hrejected : validateReplicatedMutation entry.mutation (some dimension) ≠ .ok ()) :
    wp (commitOn entry (world.metadata.shards entry.shardId).replicas)
      (fun committed w => committed = [] ∧ Aside world w) (fun _ _ => False) world := by
  refine wp_collect (fun _ kept w => kept = [] ∧ Aside world w) _ ?_ ⟨rfl, rfl, rfl, rfl⟩
  rintro before kept name rest hnames w ⟨rfl, haside⟩
  have hname : name ∈ (world.metadata.shards entry.shardId).replicas := by simp [hnames]
  obtain ⟨halive, hreachable⟩ := hcalm.reachable name hname
  rw [← haside.nodes] at halive hreachable
  have hturn : ∃ left, attempt (sendCommit entry name) w = (.ok none, left) ∧ Aside world left := by
    cases hentry : entry.validate with
    | error e =>
        obtain ⟨message, rfl⟩ := raises_entry_validate entry e hentry
        refine ⟨w, ?_, haside⟩
        unfold sendCommit
        rw [hentry]
        rfl
    | ok u =>
        obtain ⟨e, he, hhandle⟩ := @commit_rejected _ entry dimension (w.nodes name)
          (fun shard hshard => hmine name shard (by rw [haside.nodes] at hshard; exact hshard))
          hrejected
        have hattempt := attempt_rpc_calm (haside.faults.trans hcalm.faults) halive hreachable
          hhandle (by simpa using he)
        have hself : (w.note ((commitRequest entry).note (w.nodes name))).setNode name
            (w.nodes name) = w.note ((commitRequest entry).note (w.nodes name)) :=
          set_node_self (w.note ((commitRequest entry).note (w.nodes name))) name
        rw [hself] at hattempt
        refine ⟨w.note ((commitRequest entry).note (w.nodes name)), ?_,
          ⟨haside.metadata, haside.nodes, haside.faults⟩⟩
        rw [sendCommit, lift_ok_bind hentry]
        exact hattempt
  obtain ⟨left, hrun, hleft⟩ := hturn
  rw [wp_bind]
  refine wp_of_ok hrun ?_
  simpa using hleft

/-! ## Main result -/

/-- The placements, the request table and everything the replicas hold are the same. -/
structure Unchanged (world after : World) : Prop where
  shards : after.metadata.shards = world.metadata.shards
  requestTable : after.metadata.requestTable = world.metadata.requestTable
  replicas : ∀ name shardId, after.replica name shardId = world.replica name shardId

/-- The write raises and leaves everything as it was. -/
def RaisesUnchanged (world : World) (requestId : RequestId) (mutation : Json) : Prop :=
  (∃ e, (write requestId mutation world).1 = .error e) ∧
    Unchanged world (write requestId mutation world).2

/-- The write of a mutation with this checksum ends at this shard before anything has changed: the
request is in the table with another checksum, or the shard cannot get a leader; a request that
was prepared before goes on to its commit round, which every replica refuses. -/
def StopsAt (world : World) (requestId : RequestId) (checksum shardId : Nat) : Prop :=
  match world.metadata.requestTable requestId with
  | some record => record.checksum ≠ checksum ∨
      record.status = .prepared ∧
        (world.leads shardId = true ∨ ¬ world.QuorumOf shardId (world.loaded shardId))
  | none => world.leads shardId = false ∧ ¬ world.QuorumOf shardId (world.loaded shardId)

/-- The write ends before the coordinator has changed anything: it is closed, the id or the
checksum of the mutation raises, or the write stops at the shard it routes to. -/
def StopsEarly (world : World) (requestId : RequestId) (mutation : Json) : Prop :=
  world.closed = true ∨ ∀ pointId checksum, mutationId mutation = .ok pointId →
    payloadChecksum mutation = .ok checksum →
      StopsAt world requestId checksum (world.metadata.route pointId)

omit [FloatRepr] in
theorem not_unchanged_of_progress {after : World}
    (h : world.progress shardId < after.progress shardId) : ¬ Unchanged world after := by
  intro hsame
  unfold World.progress at h
  rw [hsame.shards] at h
  exact lt_irrefl _ h

variable {requestId : RequestId} {mutation : Json}

omit [FloatRepr] in
theorem unchanged_of_aside {after : World} (h : Aside world after) : Unchanged world after :=
  ⟨by rw [h.metadata], by rw [h.metadata], fun name shardId => by rw [World.replica, h.nodes]; rfl⟩

/-- The retry of a prepared request whose mutation is refused. -/
theorem retry_rejected {record : RequestRecord} (hcalm : Calm world shardId)
    (hleader : (world.metadata.shards shardId).leader ∈ (world.metadata.shards shardId).replicas)
    (hmine : ∀ name shard, (world.replica name shardId).shard = some shard →
      shard.dimension = dimension)
    (hrejected : validateReplicatedMutation mutation (some dimension) ≠ .ok ())
    (hchecksum : record.checksum = checksumOf mutation) (hstatus : record.status = .prepared)
    (hleads : world.leads shardId = true) :
    wp (writeAgain requestId mutation shardId record) (fun _ _ => False)
      (fun _ w => Aside world w) world := by
  have hensure := ensure_leader_reachable hcalm hleader
  rw [if_pos hleads] at hensure
  unfold writeAgain
  rw [wp_bind]
  refine wp_of_ok (ensure_of hchecksum _ _) ?_
  simp only [hstatus, wp_bind]
  refine wp_of_ok hensure ?_
  simp only [noteRetry, wp_bind, wp_update, wp_read, commitPrepared, ReplicatedEntry.create]
  refine wp_mono (@wp_commit_on_rejected _ (World.note _ _) (.create shardId
    (world.metadata.shards shardId).term (world.metadata.shards shardId).placementEpoch record.index
    requestId mutation) dimension ⟨hcalm.faults, hcalm.reachable⟩ hmine hrejected) ?_
    fun _ _ h => h.elim
  rintro committed w ⟨rfl, haside⟩
  refine wp_ensure.2 ⟨fun hquorum => ?_, fun _ => ⟨haside.metadata, haside.nodes, haside.faults⟩⟩
  simp [ShardPlacement.quorum] at hquorum

omit [FloatRepr] in
theorem Aside.refl (world : World) : Aside world world :=
  ⟨rfl, rfl, rfl⟩

theorem write_once_open {leaderFailed : Nat → ClusterM CommitResult} {pointId : Int}
    (hopen : world.closed = false) (hid : mutationId mutation = .ok pointId)
    (hroute : world.metadata.route pointId = shardId) :
    writeOnce requestId mutation leaderFailed world =
      (match world.metadata.requestTable requestId with
        | some record => writeAgain requestId mutation shardId record
        | none => do
            ensureLeader shardId
            let (entry, prepared) ← prepareNext requestId mutation shardId
            let world ← read
            if (world.metadata.shards shardId).leader ∈ prepared then
              commitFresh requestId entry prepared
            else leaderFailed shardId : ClusterM CommitResult) world := by
  have hensure : ensureOpen world = (.ok (), world) := by
    rw [ensureOpen, read_bind, ensure_of (by simp [hopen])]
  subst hroute
  rw [writeOnce, bind_of_ok hensure, lift_ok_bind hid]
  rfl

section

variable {leaderFailed : Nat → ClusterM CommitResult} {pointId : Int} (hcalm : Calm world shardId)
  (hleader : (world.metadata.shards shardId).leader ∈ (world.metadata.shards shardId).replicas)
  (hid : mutationId mutation = .ok pointId) (hroute : world.metadata.route pointId = shardId)

include hcalm hleader hid hroute

/-- A write that stops at its shard raises and changes nothing. -/
theorem stops_at_raises (hopen : world.closed = false)
    (hmine : ∀ name shard, (world.replica name shardId).shard = some shard →
      shard.dimension = dimension)
    (hrejected : validateReplicatedMutation mutation (some dimension) ≠ .ok ())
    (hstops : StopsAt world requestId (checksumOf mutation) shardId) :
    wp (writeOnce requestId mutation leaderFailed) (fun _ _ => False)
      (fun _ w => Aside world w) world := by
  have hensure := ensure_leader_reachable hcalm hleader
  unfold wp
  rw [write_once_open hopen hid hroute]
  change wp _ (fun _ _ => False) (fun _ w => Aside world w) world
  unfold StopsAt at hstops
  cases htable : world.metadata.requestTable requestId with
  | none =>
      rw [htable] at hstops
      rw [if_neg (by simp [hstops.1]), elect_without_quorum hcalm hstops.2] at hensure
      simp only [wp_bind]
      unfold wp
      rw [hensure]
      exact .refl world
  | some record =>
      rw [htable] at hstops
      simp only
      by_cases hchecksum : record.checksum = checksumOf mutation
      · obtain ⟨hstatus, hleads⟩ := hstops.resolve_left (not_not.2 hchecksum)
        by_cases hleads' : world.leads shardId = true
        · exact retry_rejected hcalm hleader hmine hrejected hchecksum hstatus hleads'
        · rw [if_neg hleads', elect_without_quorum hcalm (hleads.resolve_left hleads')] at hensure
          unfold writeAgain
          rw [wp_bind]
          refine wp_of_ok (ensure_of hchecksum _ _) ?_
          simp only [hstatus, wp_bind]
          unfold wp
          rw [hensure]
          exact .refl world
      · unfold writeAgain wp
        rw [bind_of_error (ensure_of_not hchecksum _ _)]
        exact .refl world

/-- A write that does not stop there returns what was committed before, or moves a placement. -/
theorem goes_on_moves (hopen : world.closed = false)
    (hfailed : ∀ shard, Ascends World.progress (leaderFailed shard))
    (hstops : ¬ StopsAt world requestId (checksumOf mutation) shardId) :
    (∃ result, (writeOnce requestId mutation leaderFailed world).1 = .ok result) ∨
      world.progress shardId <
        (writeOnce requestId mutation leaderFailed world).2.progress shardId := by
  have hensure := ensure_leader_reachable hcalm hleader
  unfold StopsAt at hstops
  rw [write_once_open hopen hid hroute]
  cases htable : world.metadata.requestTable requestId with
  | none =>
      rw [htable] at hstops
      simp only
      right
      by_cases hleads : world.leads shardId = true
      · rw [if_pos hleads] at hensure
        rw [bind_of_ok hensure]
        exact lt_of_lt_of_le (prepare_next_moves hcalm.faults)
          (le_bind (ascends_replicate progress_steady hfailed) world shardId)
      · rw [if_neg hleads] at hensure
        have hquorum : world.QuorumOf shardId (world.loaded shardId) := by
          by_contra hnot
          exact hstops ⟨by simpa using hleads, hnot⟩
        refine lt_of_lt_of_le (elect_moves hcalm hquorum) ?_
        rw [← hensure]
        exact le_bind (fun _ => ascends_bind (ascends_prepare_next progress_steady _ _ _)
          (ascends_replicate progress_steady hfailed)) world shardId
  | some record =>
      rw [htable] at hstops
      simp only [not_or, not_not] at hstops
      obtain ⟨hchecksum, hstops⟩ := hstops
      simp only
      unfold writeAgain
      rw [bind_of_ok (ensure_of hchecksum _ _)]
      cases hstatus : record.status with
      | committed => exact .inl ⟨_, rfl⟩
      | prepared =>
          right
          simp only
          rw [hstatus] at hstops
          simp only [true_and, not_or, not_not] at hstops
          rw [if_neg hstops.1] at hensure
          refine lt_of_lt_of_le (elect_moves hcalm hstops.2) ?_
          rw [← hensure]
          have hnote : Ascends World.progress (noteRetry requestId mutation shardId record) :=
            fun _ => le_rfl
          exact le_bind (fun _ => ascends_bind hnote fun _ =>
            ascends_bind ascends_read fun _ => ascends_commit_prepared progress_steady _ _ _) world shardId

end

/-- A write that cannot compute the id or the checksum of its mutation changes nothing. -/
theorem write_refused (h : ¬ ∃ pointId checksum, world.closed = false ∧
      mutationId mutation = .ok pointId ∧ payloadChecksum mutation = .ok checksum) :
    ∃ e, write requestId mutation world = (.error e, world) := by
  have hwrite : wp (write requestId mutation) (fun _ _ => False) (fun _ w => w = world) world := by
    simp only [write, ensureOpen, wp_bind, wp_read, wp_ensure, wp_lift]
    exact ⟨fun hopen => ⟨fun pointId hid => ⟨fun checksum hchecksum =>
      absurd ⟨pointId, checksum, by simpa using hopen, hid, hchecksum⟩ h, fun _ _ => trivial⟩,
        fun _ _ => trivial⟩, fun _ => trivial⟩
  unfold wp at hwrite
  split at hwrite
  · exact hwrite.elim
  · next e after hrun => exact ⟨e, hwrite ▸ hrun⟩

/-- In every run, with every replica of the shard running and reachable and nothing failing: a
write of a mutation that the validator refuses raises and leaves the placements, the request
table and every replica as they were exactly when it stops early. -/
theorem rejected_write_unchanged_iff {ρ : Type} (answer : PointMap → Except String ρ)
    (calls : List (ClusterCall × List Fault))
    (hup : (World.run answer .initial calls).up = true)
    (requestId : RequestId) (mutation : Json)
    (hrejected : validateReplicatedMutation mutation
      (some (World.run answer .initial calls).metadata.dimension) ≠ .ok ())
    (hcalm : ∀ pointId, mutationId mutation = .ok pointId →
      Calm (World.run answer .initial calls).withoutFaults
        ((World.run answer .initial calls).metadata.route pointId)) :
    RaisesUnchanged (World.run answer .initial calls).withoutFaults requestId mutation ↔
      StopsEarly (World.run answer .initial calls) requestId mutation := by
  have hfounded := founded_of_reaches (run_reaches calls) hup
  generalize World.run answer .initial calls = world at *
  unfold RaisesUnchanged StopsEarly
  by_cases hadmitted : ∃ pointId checksum, world.closed = false ∧
      mutationId mutation = .ok pointId ∧ payloadChecksum mutation = .ok checksum
  · obtain ⟨pointId, checksum, hopen, hid, hchecksum⟩ := hadmitted
    have hleader := hfounded.led (world.metadata.route pointId) (Nat.mod_lt _ hfounded.count_pos)
    have hmine : ∀ name shard,
        (world.replica name (world.metadata.route pointId)).shard = some shard →
        shard.dimension = world.metadata.dimension := fun name shard hshard =>
      ((hfounded.opened name (world.metadata.route pointId)).shard shard hshard).dimension_eq
    let again : Nat → ClusterM CommitResult := fun shardId => do
      electLeader shardId
      writeRetrying requestId mutation 1
    have hwrite : write requestId mutation world.withoutFaults =
        writeOnce requestId mutation again (world.withoutFaults.submitted mutation) :=
      write_admitted hopen hid hchecksum
    obtain ⟨-, rfl⟩ := payload_checksum_ok.1 hchecksum
    have hcalm' : Calm (world.withoutFaults.submitted mutation) (world.metadata.route pointId) :=
      ⟨rfl, (hcalm pointId hid).reachable⟩
    rw [hwrite]
    constructor
    · rintro ⟨⟨e, he⟩, hsame⟩
      by_contra hnot
      have hgoes : ¬ StopsAt (world.withoutFaults.submitted mutation) requestId
          (checksumOf mutation) (world.metadata.route pointId) := by
        refine fun hstops => hnot (.inr fun other sum hother hsum => ?_)
        cases hid.symm.trans hother
        cases hchecksum.symm.trans hsum
        exact hstops
      rcases goes_on_moves hcalm' hleader hid rfl hopen
        (fun shard => leader_failed_advances requestId mutation 1 shard) hgoes with
        ⟨result, hok⟩ | hlt
      · rw [hok] at he
        cases he
      · exact not_unchanged_of_progress hlt ⟨hsame.shards, hsame.requestTable, hsame.replicas⟩
    · intro hearly
      have hstops := hearly.resolve_left (by simp [hopen]) pointId _ hid hchecksum
      have hraises : wp (writeOnce requestId mutation again) (fun _ _ => False)
          (fun _ w => Aside (world.withoutFaults.submitted mutation) w)
          (world.withoutFaults.submitted mutation) :=
        stops_at_raises hcalm' hleader hid rfl hopen hmine hrejected hstops
      unfold wp at hraises
      split at hraises
      · exact hraises.elim
      · next e after hrun =>
          rw [hrun]
          have hsame := unchanged_of_aside hraises
          exact ⟨⟨e, rfl⟩, hsame.shards, hsame.requestTable, hsame.replicas⟩
  · obtain ⟨e, hrun⟩ := @write_refused _ world.withoutFaults requestId mutation hadmitted
    rw [hrun]
    refine iff_of_true ⟨⟨e, rfl⟩, rfl, rfl, fun _ _ => rfl⟩ ?_
    by_cases hclosed : world.closed = true
    · exact .inl hclosed
    · exact .inr fun pointId checksum hid hchecksum =>
        absurd ⟨pointId, checksum, by simpa using hclosed, hid, hchecksum⟩ hadmitted

end

/-! ## Samples -/

/-- A vector of two values, which a cluster of dimension 1 refuses. -/
def longVector : Json :=
  .obj [("operation", .str "upsert"), ("id", .int 1),
    ("vector", .arr [.float ⟨0⟩, .float ⟨0⟩]), ("fields", .arr []), ("sparse", .arr [])]

/-- A cluster of one shard and three replicas that has committed one delete. -/
def servingCalls : List (ClusterCall × List Fault) :=
  [(.construct ⟨1, 1, 3, 3⟩, []), (.write (sampleRequest true) (deleteMutation 1), [])]

/-- Every replica is reachable and the mutation is refused, yet the write moves the term and the
log of the shard. -/
theorem rejected_write_moves_placement :
    Calm (sampleCluster servingCalls).withoutFaults
        ((sampleCluster servingCalls).metadata.route 1) ∧
      validateReplicatedMutation longVector
        (some (sampleCluster servingCalls).metadata.dimension) ≠ .ok () ∧
      ¬ @RaisesUnchanged sampleFloatRepr (sampleCluster servingCalls).withoutFaults
        (sampleRequest false) longVector := by
  have hbefore : (sampleCluster servingCalls).withoutFaults.progress 0 = (1, 1) := by
    decide +kernel
  have hafter : (@write sampleFloatRepr (sampleRequest false) longVector
      (sampleCluster servingCalls).withoutFaults).2.progress 0 = (3, 4) := by
    decide +kernel
  refine ⟨⟨rfl, by decide +kernel⟩, by decide +kernel, ?_⟩
  rintro ⟨-, hsame⟩
  have hmoved : (sampleCluster servingCalls).withoutFaults.progress 0 <
      (@write sampleFloatRepr (sampleRequest false) longVector
        (sampleCluster servingCalls).withoutFaults).2.progress 0 := by
    rw [hbefore, hafter]
    exact Prod.mk_lt_mk.2 (.inl ⟨by omega, by omega⟩)
  exact not_unchanged_of_progress hmoved hsame

/-- A request that is used again with another mutation is refused before anything changes. -/
theorem rejected_write_unchanged_iff_reused :
    @RaisesUnchanged sampleFloatRepr (sampleCluster servingCalls).withoutFaults
      (sampleRequest true) longVector := by
  have hup : (sampleCluster servingCalls).up = true := by decide +kernel
  have hrejected : validateReplicatedMutation longVector
      (some (sampleCluster servingCalls).metadata.dimension) ≠ .ok () := by decide +kernel
  have hcalm : Calm (sampleCluster servingCalls).withoutFaults
      ((sampleCluster servingCalls).metadata.route 1) := by
    refine ⟨rfl, ?_⟩
    decide +kernel
  have hchecksum : ((sampleCluster servingCalls).metadata.requestTable (sampleRequest true)).any
      (fun record => record.checksum ≠ @checksumOf sampleFloatRepr longVector) = true := by
    decide +kernel
  have hstops : @StopsEarly sampleFloatRepr (sampleCluster servingCalls) (sampleRequest true)
      longVector := by
    refine .inr fun pointId checksum _ hsum => ?_
    have hsum := ((@payload_checksum_ok sampleFloatRepr _ _).1 hsum).2
    unfold StopsAt
    cases hrecord : (sampleCluster servingCalls).metadata.requestTable (sampleRequest true) with
    | none => simp [hrecord] at hchecksum
    | some record =>
        have hne : record.checksum ≠ @checksumOf sampleFloatRepr longVector := by
          simpa [hrecord] using hchecksum
        exact .inl fun heq => hne (heq.trans hsum.symm)
  have hrouted : @mutationId sampleFloatRepr longVector = .ok 1 := rfl
  unfold sampleCluster at hup hrejected hcalm hstops ⊢
  exact (@rejected_write_unchanged_iff sampleFloatRepr Unit (fun _ => .ok ()) servingCalls hup
    (sampleRequest true) longVector hrejected fun pointId hid => by
      cases hrouted.symm.trans hid
      exact hcalm).2 hstops

end Akasha.Distributed

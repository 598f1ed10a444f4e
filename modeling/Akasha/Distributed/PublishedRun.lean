import Akasha.Distributed.FloatText
import Akasha.Distributed.PublishedRoundTrip
import Akasha.Distributed.Requests
import Akasha.Distributed.Validity

/-!
# The metadata of a run

The coordinator's decisions read only a part of its metadata. `complete` adds the rest: the
identifier and the configuration of the cluster and the addresses of the nodes, which a
coordinator sets up when it starts. The main theorem, `metadata_publishable_and_reloads`, says
that in every run that stays within the logs of the shards `validate` accepts the metadata in
memory, and that whatever `validate` accepts is published and read back as it was.
-/

namespace Akasha.Distributed.Published

open Lib Lib.Exec Relation

/-! ## What the kernel promises -/

/-- The kernel's configurations have all the fields, with their types and the dimension asked
for, and the kernel returns its own output unchanged. -/
class LawfulConfigKernel extends ConfigKernel where
  fields : ∀ dimension options config, validateCollectionConfig dimension options = .ok config →
    (∀ name ∈ config.keys, name ∈ collectionConfigFields) ∧
      ∀ name ∈ collectionConfigFields, name ∈ config
  integers : ∀ dimension options config, validateCollectionConfig dimension options = .ok config →
    ∀ name ∈ collectionConfigFields, name ∉ configTextFields → (item config name).isInt = true
  texts : ∀ dimension options config, validateCollectionConfig dimension options = .ok config →
    ∀ name ∈ configTextFields, (item config name).isStr = true
  dimension : ∀ dimension options config, validateCollectionConfig dimension options = .ok config →
    item config "dimension" = .int dimension
  unchanged : ∀ dimension options config requested,
    validateCollectionConfig dimension options = .ok config →
    CollectionConfig.fromKernel config = .ok requested →
    validateCollectionConfig dimension (some requested.toKernel) = .ok config

/-- A configuration the kernel returned is canonical. -/
theorem canonical_of_kernel [LawfulConfigKernel] {dimension : Int} {options : Option (Dict Json)}
    {config : Dict Json} {requested : CollectionConfig}
    (h : ConfigKernel.validateCollectionConfig dimension options = .ok config)
    (hread : CollectionConfig.fromKernel config = .ok requested) :
    canonicalCollectionConfig config dimension = .ok config := by
  have hresolve : resolveConfig config dimension = .ok config := by
    rw [resolveConfig, hread]
    show kernelCheck (ConfigKernel.validateCollectionConfig dimension (some requested.toKernel)) = _
    rw [LawfulConfigKernel.unchanged dimension options config requested h hread]
    rfl
  simp only [canonicalCollectionConfig, bind_ok, require_ok, exists_unit, check_each_ok,
    hresolve]
  refine ⟨LawfulConfigKernel.fields dimension options config h, fun name hname => ?_,
    LawfulConfigKernel.texts dimension options config h _ (by simp [configTextFields]),
    LawfulConfigKernel.texts dimension options config h _ (by simp [configTextFields]),
    LawfulConfigKernel.dimension dimension options config h, config, rfl, rfl, rfl⟩
  obtain ⟨hname, htext⟩ := List.mem_filter.1 hname
  obtain ⟨number, hnumber⟩ := Json.is_int_iff.1
    (LawfulConfigKernel.integers dimension options config h name hname (by simpa using htext))
  exact ⟨number, exact_int_ok.2 hnumber, rfl⟩

/-! ## The whole record -/

/-- What a coordinator sets up beside the fields its decisions read: `cluster_id or uuid4().hex`,
the addresses the processes listen on, and what the kernel made of the configuration asked for. -/
structure Identity [ConfigKernel] (dimension : Int) where
  clusterId : String
  named : clusterId ≠ ""
  address : String → String × Int
  listening : ∀ node, (address node).1 ≠ "" ∧ 0 < (address node).2 ∧ (address node).2 ≤ 65535
  requested : CollectionConfig
  collectionConfig : Dict Json
  configured : ConfigKernel.validateCollectionConfig dimension (some requested.toKernel) =
    .ok collectionConfig
  config : CollectionConfig
  readable : CollectionConfig.fromKernel collectionConfig = .ok config

/-- The `status` of a request as text. -/
def statusText : RequestStatus → String
  | .prepared => "prepared"
  | .committed => "committed"

/-- The entry of a request in the table. -/
def recordValue (record : RequestRecord) : Value :=
  .dict (dictOf [("shard_id", .int record.shardId), ("term", .int record.term),
    ("index", .int record.index), ("checksum", .int record.checksum),
    ("status", .str (statusText record.status))])

/-- The placement of a shard with its identifier. -/
def completePlacement (shardId : Nat) (placement : Distributed.ShardPlacement) :
    ShardPlacement where
  shardId := shardId
  term := placement.term
  placementEpoch := placement.placementEpoch
  leader := placement.leader
  replicas := placement.replicas
  lastLogIndex := placement.lastLogIndex
  committedIndex := placement.committedIndex

/-- The metadata in memory; `requests` lists the keys of the request table. -/
def complete [ConfigKernel] (metadata : Distributed.ClusterMetadata)
    (identity : Identity metadata.dimension) (requests : List RequestId) : ClusterMetadata where
  clusterId := identity.clusterId
  dimension := metadata.dimension
  shardCount := metadata.shardCount
  replicationFactor := metadata.replicationFactor
  epoch := metadata.epoch
  members := dictOf (metadata.members.map fun node => (node, identity.address node))
  shards := Std.ExtTreeMap.ofList ((List.range metadata.shardCount).map fun shardId : Nat =>
    ((shardId : Int), completePlacement shardId (metadata.shards shardId))) compare
  collectionConfig := identity.collectionConfig
  requestTable := dictOf (requests.filterMap fun requestId =>
    (metadata.requestTable requestId).map fun record => (requestId.1, recordValue record))
  routingVersion := routingVersion

/-- The list names every request of the table. -/
def Names (requests : List RequestId) (metadata : Distributed.ClusterMetadata) : Prop :=
  ∀ requestId, metadata.requestTable requestId ≠ none → requestId ∈ requests

theorem item_dict_of {items : List (String × Json)} (hkeys : (items.map Prod.fst).Nodup)
    {name : String} {value : Json} (h : (name, value) ∈ items) :
    item (dictOf items) name = value := by
  have hdistinct : items.Pairwise fun a b => ¬ compare a.1 b.1 = .eq :=
    (List.pairwise_map.1 hkeys).imp fun hne heq => hne (Std.LawfulEqCmp.eq_of_compare heq)
  exact item_of_get (Std.ExtTreeMap.getElem?_ofList_of_mem Std.ReflCmp.compare_self hdistinct h)

/-- An entry the coordinator writes passes the validation. -/
theorem validate_record_value {requestId : RequestId} {record : RequestRecord} :
    validateRequest requestId.1 (recordValue record) = .ok () := by
  have hitem := @item_dict_of [("shard_id", .int record.shardId), ("term", .int record.term),
    ("index", .int record.index), ("checksum", .int record.checksum),
    ("status", .str (statusText record.status))] (by simp)
  simp only [recordValue, validateRequest, bind_ok, require_ok, exists_unit,
    check_each_ok]
  refine ⟨requestId.2, ?_, fun name hname => ?_, ?_⟩
  · simp [dictOf, requestRecordFields, Std.ExtTreeMap.mem_keys]
  · simp only [List.mem_cons, List.not_mem_nil, or_false] at hname
    rcases hname with rfl | rfl | rfl | rfl
    · exact ⟨record.shardId, exact_int_ok.2 (hitem (by simp)), rfl⟩
    · exact ⟨record.term, exact_int_ok.2 (hitem (by simp)), rfl⟩
    · exact ⟨record.index, exact_int_ok.2 (hitem (by simp)), rfl⟩
    · exact ⟨record.checksum, exact_int_ok.2 (hitem (by simp)), rfl⟩
  · rw [hitem (List.mem_of_getElem? (i := 4) rfl)]
    cases record.status
    · exact .inl rfl
    · exact .inr rfl

section

variable [LawfulConfigKernel] {metadata : Distributed.ClusterMetadata}

theorem get_shards {identity : Identity metadata.dimension} {requests : List RequestId}
    {shardId : Int} {placement : ShardPlacement}
    (h : (complete metadata identity requests).shards[shardId]? = some placement) :
    ∃ shard < metadata.shardCount, shardId = shard ∧
      placement = completePlacement shard (metadata.shards shard) := by
  obtain ⟨shard, hshard, heq⟩ := List.mem_map.1 (mem_of_get_of_list h)
  obtain ⟨rfl, rfl⟩ := Prod.mk.inj heq
  exact ⟨shard, List.mem_range.1 hshard, rfl, rfl⟩

omit [LawfulConfigKernel] in
theorem validate_complete_placement {shard : Nat} {placement : Distributed.ShardPlacement}
    {members : Dict (String × Int)} {names : List String} (h : placement.Valid names)
    (hmembers : ∀ name ∈ names, name ∈ members) :
    (completePlacement shard placement).validate shard members = .ok () := by
  have hquorum := List.length_pos_of_mem h.leader_mem
  simp only [ShardPlacement.validate, bind_ok, require_ok, exists_unit]
  exact ⟨⟨rfl, Int.natCast_pos.2 h.term_pos⟩, Int.natCast_pos.2 h.epoch_pos, h.nodup,
    h.leader_mem, by simp only [ShardPlacement.quorum, completePlacement]; omega,
    Int.ofNat_le.2 h.committed_le, fun node hnode => hmembers node (h.members node hnode)⟩

/-- Valid metadata of a coordinator is valid as a whole. -/
theorem valid_complete (h : metadata.Valid) (hnodup : metadata.members.Nodup)
    (identity : Identity metadata.dimension) (requests : List RequestId) :
    (complete metadata identity requests).Valid := by
  have hnames : ∀ name ∈ metadata.members,
      name ∈ (complete metadata identity requests).members := by
    intro name hname
    refine mem_of_list_iff.2 ?_
    rw [List.map_map]
    exact List.mem_map.2 ⟨name, hname, rfl⟩
  have hsize : (complete metadata identity requests).members.size = metadata.members.length := by
    have hdistinct : (metadata.members.map fun node => (node, identity.address node)).Pairwise
        fun a b => ¬ compare a.1 b.1 = .eq := by
      rw [List.pairwise_map]
      exact hnodup.imp fun hne heq => hne (Std.LawfulEqCmp.eq_of_compare heq)
    show (dictOf _).size = _
    rw [dictOf, Std.ExtTreeMap.size_ofList hdistinct, List.length_map]
  refine ⟨identity.named, ⟨Int.natCast_pos.2 h.dimension_pos, Int.natCast_pos.2 h.shardCount_pos⟩,
    ⟨Int.natCast_pos.2 h.replication.1, ?_⟩, ⟨rfl, Int.natCast_pos.2 h.epoch_pos⟩,
    canonical_of_kernel identity.configured identity.readable, ?_, ?_, ?_, ?_⟩
  · rw [hsize]
    exact Int.ofNat_le.2 h.replication.2
  · intro node address hget
    obtain ⟨name, hname, heq⟩ := List.mem_map.1 (mem_of_get_of_list hget)
    obtain ⟨rfl, rfl⟩ := Prod.mk.inj heq
    have hne : name ≠ "" := fun hempty => h.named (hempty ▸ hname)
    simp only [validateMember, bind_ok, require_ok, exists_unit]
    exact ⟨hne, identity.listening name⟩
  · intro shard
    refine mem_of_list_iff.trans ?_
    rw [List.map_map, List.mem_map]
    constructor
    · intro hmem
      obtain ⟨found, hfound, rfl⟩ := hmem
      have hlt := List.mem_range.1 hfound
      exact ⟨Int.natCast_nonneg found, Int.ofNat_lt.2 hlt⟩
    · intro hbound
      obtain ⟨hnonneg, hlt⟩ := hbound
      refine ⟨shard.toNat, List.mem_range.2 ?_, Int.toNat_of_nonneg hnonneg⟩
      have hlt' : shard < metadata.shardCount := hlt
      omega
  · intro shardId placement hget
    obtain ⟨shard, hshard, rfl, rfl⟩ := get_shards hget
    exact validate_complete_placement (h.placed shard hshard) hnames
  · intro requestId request hget
    obtain ⟨named, -, hnamed⟩ := List.mem_filterMap.1 (mem_of_get_of_list hget)
    obtain ⟨record, -, heq⟩ := Option.map_eq_some_iff.1 hnamed
    obtain ⟨rfl, rfl⟩ := Prod.mk.inj heq
    exact validate_record_value

/-- Metadata with a commit beyond a log is refused as a whole. -/
theorem complete_refused {shard : Nat} (hshard : shard < metadata.shardCount)
    (hindex : (metadata.shards shard).lastLogIndex < (metadata.shards shard).committedIndex)
    (identity : Identity metadata.dimension) (requests : List RequestId)
    (checked : ClusterMetadata) :
    (complete metadata identity requests).validate ≠ .ok checked := by
  intro hchecked
  have h := (ClusterMetadata.validate_ok.1 hchecked).1
  have hget : (complete metadata identity requests).shards[(shard : Int)]? =
      some (completePlacement shard (metadata.shards shard)) := by
    have hmem : (shard : Int) ∈ (complete metadata identity requests).shards :=
      (h.covers shard).2 ⟨Int.natCast_nonneg shard, Int.ofNat_lt.2 hshard⟩
    obtain ⟨placement, hplacement⟩ := Option.isSome_iff_exists.1
      (Std.ExtTreeMap.mem_iff_isSome_getElem?.1 hmem)
    obtain ⟨found, -, heq, rfl⟩ := get_shards hplacement
    rw [hplacement, Int.ofNat_inj.1 heq]
  have hvalid := h.placed shard _ hget
  simp only [ShardPlacement.validate, bind_ok, require_ok, exists_unit] at hvalid
  have hle := Int.ofNat_le.1 hvalid.2.2.2.2.2.1
  exact absurd hle (Nat.not_le.2 hindex)

end

/-! ## Members and requests of a run -/

theorem nodes_nodup (options : Options) : options.nodes.Nodup := by
  refine List.nodup_range.map fun a b h => ?_
  have hdigits : Nat.toDigits 10 a = Nat.toDigits 10 b := by
    have hlist := congrArg String.toList h
    rw [String.toList_append, String.toList_append, Nat.toString_eq_repr, Nat.toString_eq_repr,
      Nat.toList_repr, Nat.toList_repr] at hlist
    exact List.append_cancel_left hlist
  have hread := congrArg (fun digits => Nat.ofDigitChars 10 digits 0) hdigits
  simpa only [Nat.ofDigitChars_ten_toDigits] using hread

/-- What the whole record needs beside validity: the members are distinct, and finitely many
requests are in the table. -/
structure Tidy (metadata : Distributed.ClusterMetadata) : Prop where
  members : metadata.members.Nodup
  requests : ∃ requests, Names requests metadata

theorem Tidy.edit {metadata : Distributed.ClusterMetadata} (h : Tidy metadata)
    (edit : MetadataEdit) : Tidy (metadata.edit edit) := by
  obtain ⟨requests, hrequests⟩ := h.requests
  have hrecord : ∀ requestId record, Names (requestId :: requests)
      (metadata.record requestId record) := by
    intro requestId record other hother
    simp only [Distributed.ClusterMetadata.record] at hother
    split at hother
    · next heq => exact heq ▸ List.mem_cons_self
    · exact List.mem_cons_of_mem _ (hrequests other hother)
  cases edit with
  | recordPrepared requestId record => exact ⟨h.members, _, hrecord requestId record⟩
  | recordCommitted requestId record => exact ⟨h.members, _, hrecord requestId record⟩
  | _ => exact ⟨h.members, requests, hrequests⟩

/-- The metadata in memory and in the file is tidy. -/
structure TidyWorld (world : World) : Prop where
  memory : Tidy world.metadata
  file : ∀ metadata, world.published = some metadata → Tidy metadata

theorem TidyWorld.publish {world : World} (h : TidyWorld world) (edit : MetadataEdit)
    (note : History → History) :
    TidyWorld ((world.publishing (world.metadata.edit edit)).note note) := by
  refine ⟨h.memory.edit edit, fun metadata hmetadata => ?_⟩
  cases hmetadata
  exact h.memory.edit edit

theorem tidy_initial : TidyWorld .initial :=
  ⟨⟨List.nodup_nil, [], fun _ h => absurd rfl h⟩, fun _ h => by cases h⟩

section

variable [FloatRepr] {world after : World}

theorem TidyWorld.sends {entry : ReplicatedEntry} (h : TidyWorld world)
    (hsends : Sends entry world after) : TidyWorld after := by
  induction hsends with
  | refl => exact h
  | tail _ hsend ih => cases hsend <;> exact ⟨ih.memory, ih.file⟩

theorem TidyWorld.act (h : TidyWorld world) (hact : Act world after) : TidyWorld after := by
  cases hact with
  | publish hedit _ => exact h.publish _ _
  | refuse hedit _ => exact ⟨h.memory.edit _, h.file⟩
  | round _ hsends hend =>
      have hsent := h.sends hsends
      cases hend with
      | failed => exact hsent
      | published => exact hsent.publish _ _
      | refused => exact ⟨hsent.memory.edit (committing _ _), hsent.file⟩
  | _ => exact ⟨h.memory, h.file⟩

omit [FloatRepr] in
theorem TidyWorld.boot (h : TidyWorld world) {options : Options}
    {metadata : Distributed.ClusterMetadata}
    (hstart : startingMetadata options world.published = .ok metadata) : Tidy metadata := by
  cases hpublished : world.published with
  | none =>
      rw [hpublished, startingMetadata, pure_ok] at hstart
      subst hstart
      exact ⟨nodes_nodup options, [], fun _ h => absurd rfl h⟩
  | some published =>
      rw [hpublished] at hstart
      simp only [startingMetadata, bind_ok, require_ok, exists_unit,
        pure_ok] at hstart
      obtain ⟨-, -, -, rfl⟩ := hstart
      have htidy := h.file published hpublished
      exact ⟨htidy.members, htidy.requests⟩

theorem TidyWorld.step (h : TidyWorld world) (hstep : Step world after) : TidyWorld after := by
  cases hstep with
  | act _ hact => exact h.act hact
  | boot hstart _ =>
      have htidy := h.boot hstart
      refine ⟨htidy, fun other hother => ?_⟩
      cases hother
      exact htidy
  | _ => exact ⟨h.memory, h.file⟩

theorem tidy_reaches (h : Reaches .initial after) : TidyWorld after := by
  induction h with
  | refl => exact tidy_initial
  | tail _ hstep ih => exact ih.step hstep

end

/-! ## The main theorem -/

/-- In every run that stays within the logs of the shards, the metadata of a coordinator that is
up passes `validate`; and metadata that `validate` accepts is published and read back as it was,
exactly when its integers are short enough to be printed. -/
theorem metadata_publishable_and_reloads [LawfulConfigKernel] [LawfulFloatText] :
    (∀ {ρ : Type} (answer : PointMap → Except String ρ) (calls : List (ClusterCall × List Fault)),
      World.StaysWithinLogs answer .initial calls → (World.run answer .initial calls).up = true →
      (∃ requests, Names requests (World.run answer .initial calls).metadata) ∧
      ∀ (identity : Identity (World.run answer .initial calls).metadata.dimension) (requests),
        Names requests (World.run answer .initial calls).metadata →
        (complete (World.run answer .initial calls).metadata identity requests).validate =
          .ok (complete (World.run answer .initial calls).metadata identity requests)) ∧
    ∀ metadata checked : ClusterMetadata, metadata.validate = .ok checked →
      ((∃ data, metadata.publish = .ok data ∧ ClusterMetadata.load data = .ok metadata) ↔
        convertible metadata.payload = true) := by
  constructor
  · intro ρ answer calls hwithin hup
    have hvalid := run_valid (fun hup => by cases hup) hwithin hup
    have hreaches : Reaches .initial (World.run answer .initial calls) := run_reaches calls
    have htidy := (tidy_reaches hreaches).memory
    refine ⟨htidy.requests, fun identity requests _ => ?_⟩
    exact ClusterMetadata.validate_ok.2
      ⟨valid_complete hvalid htidy.members identity requests, rfl⟩
  · intro metadata checked hchecked
    obtain ⟨hvalid, -⟩ := ClusterMetadata.validate_ok.1 hchecked
    constructor
    · intro hpublished
      obtain ⟨data, hdata, -⟩ := hpublished
      exact (ClusterMetadata.publish_ok.1 hdata).2.1
    · intro hconvertible
      have hdata := ClusterMetadata.publish_ok.2 ⟨hvalid, hconvertible, rfl⟩
      exact ⟨_, hdata, ClusterMetadata.load_publish hdata⟩

/-! ## A sample cluster -/

/-- The default configuration for dimension 1. -/
def sampleOptions : CollectionConfig where
  dimension := 1
  annMetric := "l2"
  scalarKind := "f32"
  m := 16
  m0 := 32
  efConstruction := 128
  defaultEfSearch := 64
  maxEfSearch := 512
  maxLevel := 32
  rebuildInactivePercent := 25
  deltaMaxPoints := 10000
  levelSeed := 11936128518282651045
  fingerprint := 5545225201868161895

/-- What the kernel makes of it. -/
def sampleConfig : Dict Json :=
  dictOf [("dimension", .int 1), ("ann_metric", .str "l2"), ("scalar_kind", .str "f32"),
    ("m", .int 16), ("m0", .int 32), ("ef_construction", .int 128),
    ("default_ef_search", .int 64), ("max_ef_search", .int 512), ("max_level", .int 32),
    ("rebuild_inactive_percent", .int 25), ("delta_max_points", .int 10000),
    ("level_seed", .int 11936128518282651045), ("fingerprint", .int 5545225201868161895)]

/-- A check that knows the default configuration for dimension 1 only. -/
def sampleValidate (dimension : Int) (options : Option (Dict Json)) :
    Except String (Dict Json) :=
  if dimension = 1 ∧ (options = none ∨ options = some sampleOptions.toKernel) then
    .ok sampleConfig
  else .error "dimension must be positive"

theorem sample_config_read : CollectionConfig.fromKernel sampleConfig = .ok sampleOptions := by
  decide +kernel

theorem sample_validate_ok {dimension : Int} {options : Option (Dict Json)} {config : Dict Json}
    (h : sampleValidate dimension options = .ok config) :
    dimension = 1 ∧ config = sampleConfig := by
  unfold sampleValidate at h
  split at h
  · next hone => exact ⟨hone.1, (Except.ok.inj h).symm⟩
  · cases h

/-- A kernel with that check keeps its promises. -/
@[reducible] def sampleKernel : LawfulConfigKernel where
  validateCollectionConfig := sampleValidate
  fields dimension options config h := by
    rw [(sample_validate_ok h).2]
    decide +kernel
  integers dimension options config h := by
    rw [(sample_validate_ok h).2]
    decide +kernel
  texts dimension options config h := by
    rw [(sample_validate_ok h).2]
    decide +kernel
  dimension dimension options config h := by
    rw [(sample_validate_ok h).1, (sample_validate_ok h).2]
    decide +kernel
  unchanged dimension options config requested h hread := by
    obtain ⟨rfl, rfl⟩ := sample_validate_ok h
    rw [sample_config_read] at hread
    cases hread
    decide +kernel

/-- The rest of the metadata of a sample cluster. -/
def sampleIdentity {dimension : Int} (h : dimension = 1) :
    @Identity sampleKernel.toConfigKernel dimension :=
  @Identity.mk sampleKernel.toConfigKernel dimension "sample" (by decide)
    (fun _ => ("127.0.0.1", 40001)) (fun _ => by decide) sampleOptions sampleConfig
    (by subst h; decide +kernel) sampleOptions sample_config_read

/-- The whole metadata of a new cluster. -/
def sampleMetadata : ClusterMetadata :=
  @complete sampleKernel.toConfigKernel (Options.metadata ⟨1, 1, 1, 1⟩)
    (sampleIdentity (by decide)) []

/-- A retried write stays within its log and leaves metadata that `validate` accepts; the metadata
of a new cluster is published and read back. -/
theorem metadata_publishable_and_reloads_sample :
    (∃ requests identity checked, @ClusterMetadata.validate sampleKernel.toConfigKernel
      (@complete sampleKernel.toConfigKernel (@World.run pythonFloatText.toFloatRepr Unit
        (fun _ => .ok ()) .initial retriedCalls).metadata identity requests) = .ok checked) ∧
      ∃ data, @ClusterMetadata.publish sampleKernel.toConfigKernel pythonFloatText.toFloatRepr
          sampleMetadata = .ok data ∧
        @ClusterMetadata.load sampleKernel.toConfigKernel pythonFloatText.toFloatText data =
          .ok sampleMetadata := by
  obtain ⟨hruns, hreloads⟩ := @metadata_publishable_and_reloads sampleKernel pythonFloatText
  constructor
  · have hwithin : @World.StaysWithinLogs pythonFloatText.toFloatRepr Unit (fun _ => .ok ())
        .initial retriedCalls := by decide +kernel
    have hup : (@World.run pythonFloatText.toFloatRepr Unit (fun _ => .ok ()) .initial
        retriedCalls).up = true := by decide +kernel
    have hdimension : ((@World.run pythonFloatText.toFloatRepr Unit (fun _ => .ok ()) .initial
        retriedCalls).metadata.dimension : Int) = 1 := by decide +kernel
    have hruns := hruns (fun _ => .ok ()) retriedCalls hwithin hup
    generalize @World.run pythonFloatText.toFloatRepr Unit (fun _ => .ok ()) .initial
      retriedCalls = world at *
    obtain ⟨⟨requests, hrequests⟩, hvalid⟩ := hruns
    exact ⟨requests, sampleIdentity hdimension, _, hvalid _ requests hrequests⟩
  · have hvalid : (Options.metadata ⟨1, 1, 1, 1⟩).Valid :=
      Distributed.ClusterMetadata.validate_ok.1 (by decide +kernel)
    have hchecked := (@ClusterMetadata.validate_ok sampleKernel.toConfigKernel sampleMetadata _).2
      ⟨@valid_complete sampleKernel _ hvalid (nodes_nodup _) _ [], rfl⟩
    exact (hreloads _ _ hchecked).2 (by decide +kernel)

/-- The second request of a colliding pair, alone: recorded as prepared for index 1 of shard 0,
then retried with a mutation of the same checksum that routes to shard 1, whose log is empty. -/
def overrunningCalls : List (ClusterCall × List Fault) :=
  [(.construct ⟨1, 2, 1, 1⟩, []),
    (.write (sampleRequest true) (deleteMutation 89493530),
      [.none, .none, .none, .none, .requestLost]),
    (.write (sampleRequest true) (deleteMutation 92276785), [])]

/-- A retry that overruns the log of its shard leaves metadata that `validate` refuses. -/
theorem colliding_retry_leaves_invalid_metadata :
    (sampleCluster overrunningCalls).up = true ∧
      ∃ identity, ∀ requests checked, @ClusterMetadata.validate sampleKernel.toConfigKernel
        (@complete sampleKernel.toConfigKernel (sampleCluster overrunningCalls).metadata identity
          requests) ≠ .ok checked := by
  have hdimension : ((sampleCluster overrunningCalls).metadata.dimension : Int) = 1 := by
    decide +kernel
  have hshard : 1 < (sampleCluster overrunningCalls).metadata.shardCount := by decide +kernel
  have hindex : ((sampleCluster overrunningCalls).metadata.shards 1).lastLogIndex <
      ((sampleCluster overrunningCalls).metadata.shards 1).committedIndex := by decide +kernel
  have hup : (sampleCluster overrunningCalls).up = true := by decide +kernel
  generalize sampleCluster overrunningCalls = world at *
  exact ⟨hup, sampleIdentity hdimension,
    @complete_refused sampleKernel world.metadata 1 hshard hindex (sampleIdentity hdimension)⟩

end Akasha.Distributed.Published

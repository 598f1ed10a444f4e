import Akasha.Distributed.JournalBytes
import Akasha.Distributed.Metadata
import Std.Data.ExtTreeMap

/-!
# The published metadata

`Published.ClusterMetadata` is the record of `protocol.py` with all its fields. `validate` checks
it, `publish` gives the bytes of its file and `load` reads such a file. A `dict` is a map, since
Python compares dictionaries without their order. The kernel's check of a collection
configuration is the parameter `ConfigKernel`.
-/

namespace Akasha.Distributed.Published

open Lib

/-- A `dict` whose keys are strings. -/
abbrev Dict (α : Type) := Std.ExtTreeMap String α

/-- `value[name]` of a `dict` whose keys were checked. -/
def item (value : Dict Json) (name : String) : Json :=
  (value[name]?).getD .null

/-- The items of a value that is a `dict`. -/
def fieldsOf : Json → List (String × Json)
  | .obj fields => fields
  | _ => []

/-- The `dict` with the given items. -/
def dictOf {α : Type} (items : List (String × α)) : Dict α := Std.ExtTreeMap.ofList items compare

/-- A value of type `Any`: a `dict`, or something else. -/
inductive Value where
  | dict (items : Dict Json)
  | other (value : Json)

/-- The value as `json` writes it. -/
def Value.json : Value → Json
  | .dict items => .obj items.toList
  | .other value => value

/-- The value that `json` reads. -/
def Value.ofJson : Json → Value
  | .obj fields => .dict (dictOf fields)
  | value => .other value

/-! ## Collection configurations -/

/-- `COLLECTION_CONFIG_FIELDS`. -/
def collectionConfigFields : List String :=
  ["dimension", "ann_metric", "scalar_kind", "m", "m0", "ef_construction", "default_ef_search",
    "max_ef_search", "max_level", "rebuild_inactive_percent", "delta_max_points", "level_seed",
    "fingerprint"]

/-- The fields of a configuration that are strings; the others are integers. -/
def configTextFields : List String := ["ann_metric", "scalar_kind"]

/-- `CollectionConfig` of `models.py`, as `from_kernel` makes it. -/
structure CollectionConfig where
  dimension : Int
  annMetric : String
  scalarKind : String
  m : Int
  m0 : Int
  efConstruction : Int
  defaultEfSearch : Int
  maxEfSearch : Int
  maxLevel : Int
  rebuildInactivePercent : Int
  deltaMaxPoints : Int
  levelSeed : Int
  fingerprint : Int
deriving DecidableEq

namespace CollectionConfig

/-- The check of an integer in `__post_init__`. -/
def intOption (name : String) : Json → Except Error Int
  | .int value => pure value
  | _ => throw (.runtime s!"collection {name} must be an integer")

/-- The check of a name in `__post_init__`. -/
def nameOption (name : String) (names : List String) : Json → Except Error String
  | .str value => do
      require (value ∈ names) (.runtime s!"unknown {name}")
      pure value
  | _ => throw (.runtime s!"unknown {name}")

/-- `CollectionConfig.from_kernel`, with the checks of `__post_init__`. -/
def fromKernel (value : Dict Json) : Except Error CollectionConfig := do
  let dimension ← intOption "dimension" (item value "dimension")
  require (0 < dimension) (.runtime "collection dimension must be positive")
  let annMetric ← nameOption "ann_metric" ["dot", "l2", "cosine"] (item value "ann_metric")
  let scalarKind ← nameOption "scalar_kind" ["f32", "bf16", "f16", "i8"]
    (item value "scalar_kind")
  let m ← intOption "m" (item value "m")
  let m0 ← intOption "m0" (item value "m0")
  let efConstruction ← intOption "ef_construction" (item value "ef_construction")
  let defaultEfSearch ← intOption "default_ef_search" (item value "default_ef_search")
  let maxEfSearch ← intOption "max_ef_search" (item value "max_ef_search")
  let maxLevel ← intOption "max_level" (item value "max_level")
  let rebuildInactivePercent ← intOption "rebuild_inactive_percent"
    (item value "rebuild_inactive_percent")
  let deltaMaxPoints ← intOption "delta_max_points" (item value "delta_max_points")
  let levelSeed ← intOption "level_seed" (item value "level_seed")
  require (0 ≤ levelSeed ∧ levelSeed < 2 ^ 64)
    (.runtime "collection level_seed must fit unsigned 64-bit")
  let fingerprint ← intOption "fingerprint" (item value "fingerprint")
  pure { dimension, annMetric, scalarKind, m, m0, efConstruction, defaultEfSearch, maxEfSearch,
         maxLevel, rebuildInactivePercent, deltaMaxPoints, levelSeed, fingerprint }

/-- `CollectionConfig.to_kernel`: the seed crosses the boundary as a signed integer. -/
def toKernel (config : CollectionConfig) : Dict Json :=
  dictOf [("dimension", .int config.dimension), ("ann_metric", .str config.annMetric),
    ("scalar_kind", .str config.scalarKind), ("m", .int config.m), ("m0", .int config.m0),
    ("ef_construction", .int config.efConstruction),
    ("default_ef_search", .int config.defaultEfSearch),
    ("max_ef_search", .int config.maxEfSearch), ("max_level", .int config.maxLevel),
    ("rebuild_inactive_percent", .int config.rebuildInactivePercent),
    ("delta_max_points", .int config.deltaMaxPoints),
    ("level_seed", .int (if 2 ^ 63 ≤ config.levelSeed then config.levelSeed - 2 ^ 64
      else config.levelSeed))]

end CollectionConfig

/-- `validate_collection_config` of the kernel module: a dimension and the options of a
configuration, or `None`, to the configuration it stands for. -/
class ConfigKernel where
  validateCollectionConfig : Int → Option (Dict Json) → Except String (Dict Json)

section

variable [ConfigKernel]

/-- The configuration the kernel makes of its own output. -/
def resolveConfig (value : Dict Json) (dimension : Int) : Except Error (Dict Json) := do
  let requested ← CollectionConfig.fromKernel value
  kernelCheck (ConfigKernel.validateCollectionConfig dimension (some requested.toKernel))

/-- `canonical_collection_config`. -/
def canonicalCollectionConfig (value : Dict Json) (dimension : Int) :
    Except Error (Dict Json) := do
  require ((∀ name ∈ value.keys, name ∈ collectionConfigFields) ∧
      ∀ name ∈ collectionConfigFields, name ∈ value)
    (.protocol "cluster collection config fields mismatch")
  checkEach (collectionConfigFields.filter (· ∉ configTextFields)) fun name => do
    let _ ← exactInt s!"collection config {name}" (item value name)
  require (item value "ann_metric").isStr
    (.protocol "collection config ann_metric must be a string")
  require (item value "scalar_kind").isStr
    (.protocol "collection config scalar_kind must be a string")
  require (item value "dimension" = .int dimension)
    (.protocol "cluster collection config dimension mismatch")
  let canonical ← (resolveConfig value dimension).mapError fun _ =>
    .protocol "invalid cluster collection config"
  require (canonical = value) (.protocol "cluster collection config is not canonical")
  pure canonical

/-- `_legacy_default_collection_config`. -/
def legacyDefaultCollectionConfig (dimension : Int) : Except Error (Dict Json) :=
  (ConfigKernel.validateCollectionConfig dimension none).mapError fun _ =>
    .protocol "invalid legacy collection dimension"

end

/-! ## The record -/

/-- `ShardPlacement`. -/
structure ShardPlacement where
  shardId : Int
  term : Int
  placementEpoch : Int
  leader : String
  replicas : List String
  lastLogIndex : Int
  committedIndex : Int
deriving DecidableEq

/-- `ShardPlacement.quorum`. -/
def ShardPlacement.quorum (placement : ShardPlacement) : Nat :=
  placement.replicas.length / 2 + 1

/-- `ClusterMetadata`. -/
structure ClusterMetadata where
  clusterId : String
  dimension : Int
  shardCount : Int
  replicationFactor : Int
  epoch : Int
  members : Dict (String × Int)
  shards : Std.ExtTreeMap Int ShardPlacement
  collectionConfig : Dict Json
  requestTable : Dict Value
  routingVersion : Int

/-- `ROUTING_VERSION`. -/
def routingVersion : Int := 2

/-- `LEGACY_ROUTING_VERSION`. -/
def legacyRoutingVersion : Int := 1

/-- `REQUEST_RECORD_FIELDS`. -/
def requestRecordFields : List String := ["shard_id", "term", "index", "checksum", "status"]

/-- The checks `validate` makes of a member and its address. -/
def validateMember (node : String) (address : String × Int) : Except Error Unit := do
  require (node ≠ "") (.protocol "invalid cluster member")
  require (address.1 ≠ "" ∧ 0 < address.2 ∧ address.2 ≤ 65535)
    (.protocol "invalid cluster member address")

/-- The checks `validate` makes of the placement stored under a key. -/
def ShardPlacement.validate (placement : ShardPlacement) (shardId : Int)
    (members : Dict (String × Int)) : Except Error Unit := do
  require (placement.shardId = shardId ∧ 0 < placement.term)
    (.protocol "invalid shard placement identity")
  require (0 < placement.placementEpoch) (.protocol "invalid shard placement epoch")
  require placement.replicas.Nodup (.protocol "duplicate shard replica")
  require (placement.leader ∈ placement.replicas) (.protocol "shard leader must be a replica")
  require (placement.quorum ≤ placement.replicas.length) (.protocol "shard cannot form quorum")
  require (placement.committedIndex ≤ placement.lastLogIndex)
    (.protocol "committed index exceeds shard log")
  require (∀ node ∈ placement.replicas, node ∈ members)
    (.protocol "shard references an unknown member")

/-- The checks `validate` makes of an entry of the request table. -/
def validateRequest (requestId : String) : Value → Except Error Unit
  | .other _ => throw (.protocol "invalid request table entry")
  | .dict request => do
      require (requestId ≠ "") (.protocol "invalid request table entry")
      require ((∀ name ∈ request.keys, name ∈ requestRecordFields) ∧
          ∀ name ∈ requestRecordFields, name ∈ request)
        (.protocol "request table entry fields mismatch")
      checkEach ["shard_id", "term", "index", "checksum"] fun name => do
        let _ ← exactInt s!"request table {name}" (item request name)
      require (item request "status" = .str "prepared" ∨ item request "status" = .str "committed")
        (.protocol "invalid request table status")

namespace ClusterMetadata

/-- `ClusterMetadata.validate`, with the metadata it leaves. -/
def validate [ConfigKernel] (metadata : ClusterMetadata) : Except Error ClusterMetadata := do
  require (metadata.clusterId ≠ "") (.protocol "invalid cluster identifier")
  require (0 < metadata.dimension ∧ 0 < metadata.shardCount)
    (.protocol "invalid cluster metadata header")
  require (0 < metadata.replicationFactor ∧ metadata.replicationFactor ≤ metadata.members.size)
    (.protocol "invalid cluster replication factor")
  require (metadata.routingVersion = Published.routingVersion ∧ 0 < metadata.epoch)
    (.protocol "unsupported routing metadata")
  let collectionConfig ← canonicalCollectionConfig metadata.collectionConfig metadata.dimension
  checkEach metadata.members.toList fun member => validateMember member.1 member.2
  require ((∀ shard ∈ metadata.shards.keys, 0 ≤ shard ∧ shard < metadata.shardCount) ∧
      ∀ shard ∈ List.range metadata.shardCount.toNat, (shard : Int) ∈ metadata.shards)
    (.protocol "cluster metadata must cover every shard")
  checkEach metadata.shards.toList fun shard => shard.2.validate shard.1 metadata.members
  checkEach metadata.requestTable.toList fun request => validateRequest request.1 request.2
  pure { metadata with collectionConfig }

end ClusterMetadata

/-! ## Writing -/

/-- `asdict(placement)`. -/
def ShardPlacement.asDict (placement : ShardPlacement) : Json :=
  .obj [("shard_id", .int placement.shardId), ("term", .int placement.term),
    ("placement_epoch", .int placement.placementEpoch), ("leader", .str placement.leader),
    ("replicas", .arr (placement.replicas.map .str)),
    ("last_log_index", .int placement.lastLogIndex),
    ("committed_index", .int placement.committedIndex)]

/-- The address of a member as a list. -/
def addressItems (address : String × Int) : Json := .arr [.str address.1, .int address.2]

/-- The `dict` that `to_payload` returns. -/
def ClusterMetadata.payload (metadata : ClusterMetadata) : Json :=
  .obj [("cluster_id", .str metadata.clusterId), ("dimension", .int metadata.dimension),
    ("shard_count", .int metadata.shardCount),
    ("replication_factor", .int metadata.replicationFactor), ("epoch", .int metadata.epoch),
    ("routing_version", .int metadata.routingVersion),
    ("collection_config", .obj metadata.collectionConfig.toList),
    ("members", .obj (metadata.members.toList.map fun member =>
      (member.1, addressItems member.2))),
    ("shards", .obj (metadata.shards.toList.map fun shard => (toString shard.1, shard.2.asDict))),
    ("request_table", .obj (metadata.requestTable.toList.map fun request =>
      (request.1, request.2.json)))]

/-- `ClusterMetadata.to_payload`. -/
def ClusterMetadata.toPayload [ConfigKernel] (metadata : ClusterMetadata) : Except Error Json := do
  let checked ← metadata.validate
  pure checked.payload

/-- The bytes that `ClusterMetadata.publish` puts into its file. Printing an integer with too many
digits raises `ValueError`. -/
def ClusterMetadata.publish [ConfigKernel] [FloatRepr] (metadata : ClusterMetadata) :
    Except Error (List UInt8) := do
  let payload ← metadata.toPayload
  require (convertible payload)
    (.runtime "Exceeds the limit (4300 digits) for integer string conversion")
  pure (canonicalBytes (checkedEnvelope payload) ++ [10])

/-! ## Reading -/

/-- Python's space in ASCII. -/
def isSpace (c : Char) : Bool :=
  c = ' ' || (9 ≤ c.toNat && c.toNat ≤ 13)

/-- Digits, with single underscores between them. -/
def groupedDigits : List Char → Option (List Char)
  | [] => none
  | [c] => if c.isDigit then some [c] else none
  | c :: '_' :: rest => if c.isDigit then (c :: ·) <$> groupedDigits rest else none
  | c :: rest => if c.isDigit then (c :: ·) <$> groupedDigits rest else none

/-- The sign of a number, and what follows it. -/
def splitSign : List Char → Bool × List Char
  | '-' :: rest => (true, rest)
  | '+' :: rest => (false, rest)
  | rest => (false, rest)

/-- `int(text)` of a text in ASCII: digits and a sign, with space around them. -/
def intOfKey? (text : String) : Option Int := do
  let spaced := (text.toList.dropWhile isSpace).reverse
  let (negative, unsigned) := splitSign (spaced.dropWhile isSpace).reverse
  let digits ← groupedDigits unsigned
  guard (digits.length ≤ maxIntDigits)
  let magnitude : Int := Nat.ofDigitChars 10 digits 0
  pure (if negative then -magnitude else magnitude)

/-- The key of a shard: the canonical text of an integer. -/
def shardKey (text : String) : Except Error Int :=
  match intOfKey? text with
  | none => throw (.protocol "invalid shard key")
  | some shardId => do
      require (text = toString shardId) (.protocol "noncanonical shard key")
      pure shardId

/-- One item of `members`. -/
def memberOfItem (member : String × Json) : Except Error (String × String × Int) :=
  match member.2 with
  | .arr [host, port] => do
      let host ← exactStr (.protocol "cluster member address must be a string") host
      let port ← exactInt "cluster member port" port
      pure (member.1, host, port)
  | _ => throw (.protocol "invalid cluster member")

/-- `SHARD_PLACEMENT_FIELDS`. -/
def shardPlacementFields : List String :=
  ["shard_id", "term", "placement_epoch", "leader", "replicas", "last_log_index",
    "committed_index"]

/-- One item of `shards`. -/
def placementOfItem (shard : String × Json) : Except Error (Int × ShardPlacement) := do
  require shard.2.isObj (.protocol "invalid shard placement")
  require (shard.2.hasKeys shardPlacementFields) (.protocol "shard placement fields mismatch")
  let key ← shardKey shard.1
  let shardId ← exactInt "shard placement shard_id" (field shard.2 "shard_id")
  let term ← exactInt "shard placement term" (field shard.2 "term")
  let placementEpoch ← exactInt "shard placement placement_epoch"
    (field shard.2 "placement_epoch")
  let lastLogIndex ← exactInt "shard placement last_log_index" (field shard.2 "last_log_index")
  let committedIndex ← exactInt "shard placement committed_index"
    (field shard.2 "committed_index")
  let leader ← exactStr (.protocol "invalid shard placement members") (field shard.2 "leader")
  let items ← exactList (.protocol "invalid shard placement members") (field shard.2 "replicas")
  let replicas ← items.mapM (exactStr (.protocol "invalid shard replica"))
  pure (key, ⟨shardId, term, placementEpoch, leader, replicas, lastLogIndex, committedIndex⟩)

/-- `CLUSTER_METADATA_FIELDS_V1`. -/
def clusterMetadataFieldsV1 : List String :=
  ["cluster_id", "dimension", "shard_count", "replication_factor", "epoch", "routing_version",
    "members", "shards", "request_table"]

/-- `CLUSTER_METADATA_FIELDS_V2`. -/
def clusterMetadataFieldsV2 : List String := "collection_config" :: clusterMetadataFieldsV1

section

variable [ConfigKernel]

/-- The configuration and the routing version of a payload: a file of the legacy version has
neither. -/
def configOfPayload (payload : Json) (version dimension routing : Int) :
    Except Error (Dict Json × Int) :=
  if version = legacyProtocolVersion then do
    require (routing = legacyRoutingVersion) (.protocol "invalid legacy routing version")
    let config ← legacyDefaultCollectionConfig dimension
    pure (config, routingVersion)
  else do
    require (field payload "collection_config").isObj
      (.protocol "cluster collection config is missing")
    let config ← canonicalCollectionConfig
      (dictOf (fieldsOf (field payload "collection_config"))) dimension
    pure (config, routing)

namespace ClusterMetadata

/-- `ClusterMetadata.from_payload`. -/
def fromPayload (payload : Json) (version : Int) : Except Error ClusterMetadata := do
  require payload.isObj (.protocol "cluster metadata payload must be an object")
  require (version = protocolVersion → (payload.get? "collection_config").isSome)
    (.protocol "cluster collection config is missing")
  require (payload.hasKeys (if version = legacyProtocolVersion then clusterMetadataFieldsV1
      else clusterMetadataFieldsV2))
    (.protocol "cluster metadata fields mismatch")
  let dimension ← exactInt "cluster dimension" (field payload "dimension")
  require (0 < dimension) (.protocol "cluster dimension must be positive")
  let clusterId ← exactStr (.protocol "cluster identifier must be a string")
    (field payload "cluster_id")
  let routing ← exactInt "cluster routing version" (field payload "routing_version")
  let (collectionConfig, routingVersion) ← configOfPayload payload version dimension routing
  require ((field payload "members").isObj ∧ (field payload "shards").isObj)
    (.protocol "cluster members and shards must be objects")
  let members ← (fieldsOf (field payload "members")).mapM memberOfItem
  let shards ← (fieldsOf (field payload "shards")).mapM placementOfItem
  require (field payload "request_table").isObj
    (.protocol "cluster request table must be an object")
  let shardCount ← exactInt "cluster shard_count" (field payload "shard_count")
  let replicationFactor ← exactInt "cluster replication_factor"
    (field payload "replication_factor")
  let epoch ← exactInt "cluster epoch" (field payload "epoch")
  validate
    { clusterId, dimension, shardCount, replicationFactor, epoch, collectionConfig,
      routingVersion
      members := dictOf members
      shards := Std.ExtTreeMap.ofList shards compare
      requestTable := dictOf ((fieldsOf (field payload "request_table")).map fun request =>
        (request.1, .ofJson request.2)) }

/-- `ClusterMetadata.load` on the bytes of the file. -/
def load [FloatText] (data : List UInt8) : Except Error ClusterMetadata :=
  match loads data with
  | .error .decode => throw (.protocol "cannot decode cluster metadata")
  | .error .unicode => throw (.runtime "UnicodeDecodeError")
  | .error .digits => throw (.runtime "ValueError")
  | .ok value => do
      let (version, payload) ← decodeEnvelopeVersioned value
      fromPayload payload version

end ClusterMetadata

end

end Akasha.Distributed.Published

import Akasha.Distributed.JsonRoundTrip
import Akasha.Distributed.Published
import Akasha.Lib.Dict

/-!
# The published metadata reads back

`load_publish` says that the bytes `publish` writes for a record are read by `load` as that very
record: keys, addresses, placements and requests survive the text, and what `from_payload` and
`validate` demand holds of whatever `validate` accepted before.
-/

namespace Akasha.Distributed.Published

open Lib List

/-! ## Items of a dict -/

section

variable {κ β : Type} [Ord κ] [Std.TransOrd κ] [Std.LawfulEqOrd κ]

theorem forall_items {map : Std.ExtTreeMap κ β compare} {P : κ → β → Prop} :
    (∀ item ∈ map.toList, P item.1 item.2) ↔
      ∀ key value, map[key]? = some value → P key value := by
  constructor
  · intro h key value hvalue
    exact h (key, value) (Std.ExtTreeMap.mem_toList_iff_getElem?_eq_some.2 hvalue)
  · intro h item hitem
    exact h item.1 item.2 (Std.ExtTreeMap.mem_toList_iff_getElem?_eq_some.1 hitem)

end

variable {value : Dict Json}

theorem item_of_get {name : String} {entry : Json} (h : value[name]? = some entry) :
    item value name = entry := by
  rw [item, h]
  rfl

/-- A text or an integer. -/
def Scalar (value : Json) : Prop := value.isInt = true ∨ value.isStr = true

theorem scalar_items {names : List String} (hkeys : ∀ name ∈ value.keys, name ∈ names)
    (h : ∀ name ∈ names, Scalar (item value name)) {name : String} {entry : Json}
    (hentry : value[name]? = some entry) : Scalar entry := by
  have hname : name ∈ value.keys := Std.ExtTreeMap.mem_keys.2
    (Std.ExtTreeMap.mem_iff_isSome_getElem?.2 (by rw [hentry]; rfl))
  have hscalar := h name (hkeys name hname)
  rwa [item_of_get hentry] at hscalar

theorem canonical_scalar {value : Json} (h : Scalar value) : value.canonical = value := by
  cases value <;> simp_all [Scalar, Json.isInt, Json.isStr, Json.canonical]

theorem representable_scalar {value : Json} (h : Scalar value)
    (hconvertible : convertible value = true) : value.representable = true := by
  cases value <;> simp_all [Scalar, Json.isInt, Json.isStr, Json.representable, convertible]

/-! ## What the validation establishes -/

section

variable [ConfigKernel]

theorem canonical_config_eq {value canonical : Dict Json} {dimension : Int}
    (h : canonicalCollectionConfig value dimension = .ok canonical) : canonical = value := by
  simp only [canonicalCollectionConfig, bind_ok, require_ok, exists_unit] at h
  obtain ⟨-, -, -, -, -, resolved, -, hsame, hpure⟩ := h
  exact (pure_ok.1 hpure).symm.trans hsame

theorem scalar_config {value canonical : Dict Json} {dimension : Int}
    (h : canonicalCollectionConfig value dimension = .ok canonical) {name : String} {entry : Json}
    (hentry : value[name]? = some entry) : Scalar entry := by
  simp only [canonicalCollectionConfig, bind_ok, require_ok, exists_unit,
    check_each_ok] at h
  obtain ⟨⟨hkeys, -⟩, hints, hmetric, hscalar, -⟩ := h
  refine scalar_items hkeys (fun name hname => ?_) hentry
  by_cases htext : name ∈ configTextFields
  · simp only [configTextFields, mem_cons, not_mem_nil, or_false] at htext
    rcases htext with rfl | rfl
    · exact .inr hmetric
    · exact .inr hscalar
  · obtain ⟨number, hnumber, -⟩ := hints name (mem_filter.2 ⟨hname, by simpa using htext⟩)
    exact .inl (by rw [exact_int_ok.1 hnumber]; rfl)

omit [ConfigKernel] in
/-- An entry of the request table is a `dict` of integers and texts. -/
theorem scalar_request {requestId : String} {request : Value}
    (h : validateRequest requestId request = .ok ()) :
    ∃ items : Dict Json, request = .dict items ∧
      ∀ (name : String) (entry : Json), items[name]? = some entry → Scalar entry := by
  cases request with
  | other value => cases h
  | dict items =>
      simp only [validateRequest, bind_ok, require_ok, exists_unit, check_each_ok] at h
      obtain ⟨-, ⟨hkeys, -⟩, hints, hstatus⟩ := h
      refine ⟨items, rfl, fun name entry => scalar_items hkeys fun name hname => ?_⟩
      by_cases hname' : name = "status"
      · subst hname'
        right
        rcases hstatus with hstatus | hstatus <;> rw [hstatus] <;> rfl
      · have hint : name ∈ ["shard_id", "term", "index", "checksum"] := by
          simp only [requestRecordFields, mem_cons, not_mem_nil, or_false] at hname ⊢
          tauto
        obtain ⟨number, hnumber, -⟩ := hints name hint
        exact .inl (by rw [exact_int_ok.1 hnumber]; rfl)

namespace ClusterMetadata

/-- What `validate` establishes. -/
structure Valid (metadata : ClusterMetadata) : Prop where
  named : metadata.clusterId ≠ ""
  header : 0 < metadata.dimension ∧ 0 < metadata.shardCount
  replication : 0 < metadata.replicationFactor ∧
    metadata.replicationFactor ≤ metadata.members.size
  routing : metadata.routingVersion = Published.routingVersion ∧ 0 < metadata.epoch
  config : canonicalCollectionConfig metadata.collectionConfig metadata.dimension =
    .ok metadata.collectionConfig
  members : ∀ node address, metadata.members[node]? = some address →
    validateMember node address = .ok ()
  covers : ∀ shard, shard ∈ metadata.shards ↔ 0 ≤ shard ∧ shard < metadata.shardCount
  placed : ∀ (shard : Int) (placement : ShardPlacement),
    metadata.shards[shard]? = some placement →
    placement.validate shard metadata.members = .ok ()
  requests : ∀ requestId request, metadata.requestTable[requestId]? = some request →
    validateRequest requestId request = .ok ()

/-- `validate` accepts valid metadata and leaves it as it is. -/
theorem validate_ok {metadata checked : ClusterMetadata} :
    metadata.validate = .ok checked ↔ metadata.Valid ∧ checked = metadata := by
  simp only [validate, bind_ok, require_ok, exists_unit, check_each_ok, pure_ok,
    forall_items (P := fun node address => validateMember node address = .ok ()),
    forall_items (P := fun shard (placement : ShardPlacement) =>
      placement.validate shard metadata.members = .ok ()),
    forall_items (P := fun requestId request => validateRequest requestId request = .ok ()),
    Std.ExtTreeMap.mem_keys]
  constructor
  · rintro ⟨hnamed, hheader, hreplication, hrouting, config, hconfig, hmembers, ⟨hbound, hcover⟩,
      hplaced, hrequests, rfl⟩
    have hsame := canonical_config_eq hconfig
    subst hsame
    refine ⟨⟨hnamed, hheader, hreplication, hrouting, hconfig, hmembers, fun shard => ?_, hplaced,
      hrequests⟩, rfl⟩
    refine ⟨hbound shard, fun hshard => ?_⟩
    have hrange := hcover shard.toNat (mem_range.2 (by omega))
    rwa [Int.toNat_of_nonneg hshard.1] at hrange
  · rintro ⟨h, rfl⟩
    refine ⟨h.named, h.header, h.replication, h.routing, _, h.config, h.members,
      ⟨fun shard hshard => (h.covers shard).1 hshard, fun shard hshard => ?_⟩, h.placed,
      h.requests, rfl⟩
    have hlt := mem_range.1 hshard
    exact (h.covers shard).2 (by omega)

end ClusterMetadata

end

/-! ## What JSON can represent of it -/

theorem representable_obj {fields : List (String × Json)} (hkeys : (fields.map (·.1)).Nodup)
    (hvalues : ∀ entry ∈ fields, entry.2.representable = true) :
    (Json.obj fields).representable = true := by
  rw [Json.representable, Bool.and_eq_true, decide_eq_true_eq]
  exact ⟨hkeys, (representable_fields_iff fields).2 hvalues⟩

theorem representable_map {α : Type} {map : Dict α} {write : α → Json}
    (h : ∀ (name : String) (value : α), map[name]? = some value →
      (write value).representable = true) :
    (Json.obj (map.toList.map fun entry => (entry.1, write entry.2))).representable = true := by
  refine representable_obj ?_ ?_
  · rw [map_map]
    show (map.toList.map Prod.fst).Nodup
    rw [Std.ExtTreeMap.map_fst_toList_eq_keys]
    exact Std.ExtTreeMap.nodup_keys
  · rw [forall_mem_map]
    exact forall_items.2 h

theorem representable_dict
    (hscalar : ∀ (name : String) (entry : Json), value[name]? = some entry → Scalar entry)
    (hconvertible : convertible (.obj value.toList) = true) :
    (Json.obj value.toList).representable = true := by
  rw [convertible, convertible_fields_iff] at hconvertible
  have hmap : value.toList = value.toList.map fun entry => (entry.1, id entry.2) := by simp
  rw [hmap]
  refine representable_map fun name entry hentry => ?_
  exact representable_scalar (hscalar name entry hentry)
    (hconvertible (name, entry) (Std.ExtTreeMap.mem_toList_iff_getElem?_eq_some.2 hentry))

theorem representable_placement {placement : ShardPlacement}
    (h : convertible placement.asDict = true) : placement.asDict.representable = true := by
  rw [ShardPlacement.asDict, convertible, convertible_fields_iff] at h
  refine representable_obj (by simp) fun entry hentry => ?_
  have hvalue := h entry hentry
  simp only [mem_cons, not_mem_nil, or_false] at hentry
  rcases hentry with rfl | rfl | rfl | rfl | rfl | rfl | rfl
  case inr.inr.inr.inr.inl =>
      rw [Json.representable, representable_items_iff, forall_mem_map]
      exact fun _ _ => rfl
  all_goals exact hvalue

theorem int_of_text_to_string (value : Int) : intOfText (toString value).toList = value := by
  obtain ⟨minus, -, htext, hread⟩ := int_text value
  rw [htext, hread]

theorem to_string_injective : Function.Injective (toString : Int → String) := by
  intro a b h
  rw [← int_of_text_to_string a, h, int_of_text_to_string]

/-- The payload of valid metadata is representable when its integers are convertible. -/
theorem ClusterMetadata.Valid.representable [ConfigKernel] {metadata : ClusterMetadata}
    (h : metadata.Valid) (hconvertible : convertible metadata.payload = true) :
    metadata.payload.representable = true := by
  rw [ClusterMetadata.payload, convertible, convertible_fields_iff] at hconvertible
  refine representable_obj (by simp) fun entry hentry => ?_
  have hvalue := hconvertible entry hentry
  simp only [mem_cons, not_mem_nil, or_false] at hentry
  rcases hentry with rfl | rfl | rfl | rfl | rfl | rfl | rfl | rfl | rfl | rfl
  case inr.inr.inr.inr.inr.inr.inl =>
      exact representable_dict (fun _ _ hget => scalar_config h.config hget) hvalue
  case inr.inr.inr.inr.inr.inr.inr.inl =>
      rw [convertible, convertible_fields_iff, forall_mem_map] at hvalue
      refine representable_map fun node address hget => ?_
      have hport := hvalue (node, address) (Std.ExtTreeMap.mem_toList_iff_getElem?_eq_some.2 hget)
      simpa [addressItems, convertible, convertibleItems, Json.representable, representableItems]
        using hport
  case inr.inr.inr.inr.inr.inr.inr.inr.inl =>
      rw [convertible, convertible_fields_iff, forall_mem_map] at hvalue
      refine representable_obj ?_ ?_
      · rw [map_map]
        show (metadata.shards.toList.map (toString ∘ Prod.fst)).Nodup
        rw [← map_map, Std.ExtTreeMap.map_fst_toList_eq_keys]
        exact Std.ExtTreeMap.nodup_keys.map to_string_injective
      · rw [forall_mem_map]
        exact fun shard hshard => representable_placement (hvalue shard hshard)
  case inr.inr.inr.inr.inr.inr.inr.inr.inr =>
      rw [convertible, convertible_fields_iff, forall_mem_map] at hvalue
      refine representable_map fun requestId request hget => ?_
      obtain ⟨items, rfl, hscalar⟩ := scalar_request (h.requests _ _ hget)
      exact representable_dict hscalar (hvalue (requestId, .dict items)
        (Std.ExtTreeMap.mem_toList_iff_getElem?_eq_some.2 hget))
  all_goals exact hvalue

/-! ## Shard keys -/

theorem grouped_digits_eq : ∀ {digits : List Char}, digits ≠ [] →
    (∀ c ∈ digits, c.isDigit = true) → groupedDigits digits = some digits
  | [], hne, _ => absurd rfl hne
  | [c], _, h => by rw [groupedDigits, if_pos (h c mem_cons_self)]
  | c :: next :: rest, _, h => by
      have hnext : next ≠ '_' := by
        rintro rfl
        exact absurd (h '_' (by simp)) (by decide)
      have hrest := grouped_digits_eq (cons_ne_nil next rest)
        fun c hc => h c (mem_cons_of_mem _ hc)
      rw [groupedDigits, if_pos (h c mem_cons_self), hrest]
      · rfl
      · exact cons_ne_nil next rest
      · intro tail heq
        exact hnext (cons.inj heq).1

theorem drop_while_of_none {p : Char → Bool} {chars : List Char}
    (h : ∀ c ∈ chars, p c = false) : chars.dropWhile p = chars := by
  cases chars with
  | nil => rfl
  | cons c chars => rw [dropWhile_cons, h c mem_cons_self]; rfl

theorem is_space_digit {c : Char} (h : c.isDigit = true) : isSpace c = false := by
  have hge : 48 ≤ c.toNat := by
    simp only [Char.isDigit, Bool.and_eq_true, decide_eq_true_eq] at h
    exact UInt32.le_iff_toNat_le.1 h.1
  have hne : c ≠ ' ' := by
    rintro rfl
    exact absurd hge (by decide)
  simp only [isSpace, Bool.or_eq_false_iff, Bool.and_eq_false_iff, decide_eq_false_iff_not]
  exact ⟨hne, .inr (by omega)⟩

theorem split_sign_digits {digits : List Char} (h : ∀ c ∈ digits, c.isDigit = true) :
    splitSign digits = (false, digits) := by
  unfold splitSign
  split
  · exact absurd (h '-' (by simp)) (by decide)
  · exact absurd (h '+' (by simp)) (by decide)
  · rfl

theorem int_of_text_digits {digits : List Char} (h : ∀ c ∈ digits, c.isDigit = true) :
    intOfText digits = Nat.ofDigitChars 10 digits 0 := by
  unfold intOfText
  split
  · exact absurd (h '-' (by simp)) (by decide)
  · rfl

/-- The text of an integer is the key of its shard. -/
theorem shard_key_to_string {shardId : Int}
    (h : (Nat.toDigits 10 shardId.natAbs).length ≤ maxIntDigits) :
    shardKey (toString shardId) = .ok shardId := by
  obtain ⟨minus, hminus, htext, hread⟩ := int_text shardId
  obtain ⟨hne, hdigits⟩ := digits_to_digits shardId.natAbs
  have hspace : ∀ c ∈ minus ++ Nat.toDigits 10 shardId.natAbs, isSpace c = false := by
    intro c hc
    rcases mem_append.1 hc with hc | hc
    · rcases hminus with rfl | rfl
      · cases hc
      · rw [mem_singleton.1 hc]
        rfl
    · exact is_space_digit (hdigits c hc)
  have hkey : intOfKey? (toString shardId) = some shardId := by
    have hreverse : ∀ c ∈ (minus ++ Nat.toDigits 10 shardId.natAbs).reverse, isSpace c = false :=
      fun c hc => hspace c (mem_reverse.1 hc)
    simp only [intOfKey?, htext, drop_while_of_none hspace, drop_while_of_none hreverse,
      reverse_reverse, Option.bind_eq_bind, Option.bind_eq_some_iff]
    rcases hminus with rfl | rfl
    · rw [nil_append, int_of_text_digits hdigits] at hread
      rw [nil_append, split_sign_digits hdigits]
      exact ⟨_, grouped_digits_eq hne hdigits, (), guard_some.2 h, congrArg some hread⟩
    · exact ⟨_, grouped_digits_eq hne hdigits, (), guard_some.2 h, congrArg some hread⟩
  rw [shardKey, hkey]
  simp [require, bind, Except.bind, pure, Except.pure]

/-! ## Reading the payload -/

theorem fields_canonical (fields : List (String × Json)) :
    (fieldsOf (Json.obj fields).canonical).Perm
      (fields.map fun entry => (entry.1, entry.2.canonical)) := by
  rw [Json.canonical, ← sorted_fields_eq]
  exact perm_insertionSort _ _

theorem dict_of_canonical
    (h : ∀ (name : String) (entry : Json), value[name]? = some entry → Scalar entry) :
    dictOf (fieldsOf (Json.obj value.toList).canonical) = value := by
  have hsame : value.toList.map (fun entry => (entry.1, entry.2.canonical)) = value.toList := by
    refine (map_congr_left fun entry hentry => ?_).trans (map_id _)
    rw [canonical_scalar (forall_items.2 h entry hentry)]
    rfl
  exact of_list_items ((fields_canonical value.toList).trans (.of_eq hsame))

theorem member_of_item (member : String × String × Int) :
    memberOfItem (member.1, (addressItems member.2).canonical) = .ok member := rfl

theorem placement_of_item {shard : Int × ShardPlacement}
    (hkey : (Nat.toDigits 10 shard.1.natAbs).length ≤ maxIntDigits)
    (h : shard.2.asDict.representable = true) :
    placementOfItem (toString shard.1, shard.2.asDict.canonical) = .ok shard := by
  have hreplicas : (shard.2.replicas.map Json.str).mapM
      (exactStr (.protocol "invalid shard replica")) = .ok shard.2.replicas := by
    rw [map_m_ok, forall₂_map_left_iff, forall₂_same]
    exact fun _ _ => rfl
  have hitems : (field shard.2.asDict "replicas").canonical =
      .arr (shard.2.replicas.map Json.str) := by
    show Json.arr (sortedItems (shard.2.replicas.map Json.str)) = _
    rw [sorted_items_eq, map_map]
    rfl
  simp only [placementOfItem, bind_ok, require_ok, exists_unit, has_keys_canonical,
    field_canonical h, exact_int_ok, exact_str_ok, exact_list_ok, hitems, pure_ok]
  exact ⟨rfl, rfl, _, shard_key_to_string hkey, _, rfl, _, rfl, _, rfl, _, rfl, _, rfl, _, rfl, _,
    rfl, _, hreplicas, rfl⟩

theorem request_of_json {items : Dict Json}
    (h : ∀ (name : String) (entry : Json), items[name]? = some entry → Scalar entry) :
    Value.ofJson (Value.dict items).json.canonical = .dict items :=
  congrArg Value.dict (dict_of_canonical h)

section

theorem members_of_payload (members : Dict (String × Int)) :
    ∃ items, (fieldsOf (Json.obj (members.toList.map fun member =>
        (member.1, addressItems member.2))).canonical).mapM memberOfItem = .ok items ∧
      dictOf items = members := by
  have hperm := fields_canonical (members.toList.map fun member =>
    (member.1, addressItems member.2))
  rw [map_map] at hperm
  exact read_items hperm fun member _ => member_of_item member

namespace ClusterMetadata

variable [ConfigKernel] {metadata : ClusterMetadata}

/-- The shards read back. -/
theorem Valid.shards_of_payload (h : metadata.Valid)
    (hrepresentable : metadata.payload.representable = true) :
    ∃ items, (fieldsOf (Json.obj (metadata.shards.toList.map fun shard =>
        (toString shard.1, shard.2.asDict))).canonical).mapM placementOfItem = .ok items ∧
      Std.ExtTreeMap.ofList items compare = metadata.shards := by
  have hperm := fields_canonical (metadata.shards.toList.map fun shard =>
    (toString shard.1, shard.2.asDict))
  rw [map_map] at hperm
  refine read_items hperm fun shard hshard => ?_
  have hmem : shard.1 ∈ metadata.shards := by
    rw [Std.ExtTreeMap.mem_iff_isSome_getElem?,
      Std.ExtTreeMap.mem_toList_iff_getElem?_eq_some.1 hshard]
    rfl
  have hbound := (h.covers shard.1).1 hmem
  have hcount : (Json.int metadata.shardCount).representable = true :=
    representable_field hrepresentable "shard_count"
  have hshards : (Json.obj (metadata.shards.toList.map fun shard =>
      (toString shard.1, shard.2.asDict))).representable = true :=
    representable_field hrepresentable "shards"
  rw [Json.representable, Bool.and_eq_true, representable_fields_iff,
    forall_mem_map] at hshards
  rw [Json.representable, decide_eq_true_eq,
    Nat.length_toDigits_le_iff (by norm_num) (by unfold maxIntDigits; norm_num)] at hcount
  refine placement_of_item ?_ (hshards.2 shard hshard)
  refine (Nat.length_toDigits_le_iff (by norm_num) (by unfold maxIntDigits; norm_num)).2 ?_
  exact lt_of_le_of_lt (by omega) hcount

theorem Valid.requests_of_payload (h : metadata.Valid) :
    dictOf ((fieldsOf (Json.obj (metadata.requestTable.toList.map fun request =>
        (request.1, request.2.json))).canonical).map fun request =>
      (request.1, Value.ofJson request.2)) = metadata.requestTable := by
  have hperm := (fields_canonical (metadata.requestTable.toList.map fun request =>
    (request.1, request.2.json))).map fun request => (request.1, Value.ofJson request.2)
  rw [map_map, map_map] at hperm
  refine of_list_items (hperm.trans (.of_eq ?_))
  refine (map_congr_left fun request hrequest => ?_).trans (map_id _)
  obtain ⟨items, hitems, hscalar⟩ := scalar_request (h.requests request.1 request.2
    (Std.ExtTreeMap.mem_toList_iff_getElem?_eq_some.1 hrequest))
  show (request.1, Value.ofJson request.2.json.canonical) = request
  rw [hitems, request_of_json hscalar, ← hitems]

/-- The payload of valid metadata reads back. -/
theorem Valid.from_payload (h : metadata.Valid)
    (hrepresentable : metadata.payload.representable = true) :
    fromPayload metadata.payload.canonical protocolVersion = .ok metadata := by
  obtain ⟨members, hmembers, hmembers'⟩ := members_of_payload metadata.members
  obtain ⟨shards, hshards, hshards'⟩ := h.shards_of_payload hrepresentable
  have hconfig : configOfPayload metadata.payload.canonical protocolVersion metadata.dimension
      metadata.routingVersion = .ok (metadata.collectionConfig, metadata.routingVersion) := by
    have hread := dict_of_canonical fun _ _ hget => scalar_config h.config hget
    rw [configOfPayload, if_neg (by decide), field_canonical hrepresentable]
    show (do
      let config ← canonicalCollectionConfig (dictOf (fieldsOf
        (Json.obj metadata.collectionConfig.toList).canonical)) metadata.dimension
      pure (config, metadata.routingVersion)) = _
    rw [hread, h.config]
    rfl
  simp only [fromPayload, bind_ok, require_ok, exists_unit, has_keys_canonical,
    get_canonical hrepresentable, field_canonical hrepresentable, exact_int_ok, exact_str_ok]
  refine ⟨rfl, fun _ => rfl, ?_, _, rfl, h.header.1, _, rfl, _, rfl, _, hconfig, ⟨rfl, rfl⟩, _,
    hmembers, _, hshards, rfl, _, rfl, _, rfl, _, rfl, ?_⟩
  · rfl
  · show validate { metadata with
      members := dictOf members
      shards := Std.ExtTreeMap.ofList shards compare
      requestTable := dictOf ((fieldsOf (Json.obj (metadata.requestTable.toList.map fun request =>
        (request.1, request.2.json))).canonical).map fun request =>
          (request.1, Value.ofJson request.2)) } = _
    rw [hmembers', hshards', h.requests_of_payload]
    exact validate_ok.2 ⟨h, rfl⟩

/-! ## The file -/

theorem publish_ok [FloatRepr] {data : List UInt8} :
    metadata.publish = .ok data ↔ metadata.Valid ∧ convertible metadata.payload = true ∧
      data = canonicalBytes (checkedEnvelope metadata.payload) ++ [10] := by
  simp only [publish, toPayload, bind_ok, require_ok, exists_unit, pure_ok,
    validate_ok]
  constructor
  · rintro ⟨_, ⟨_, ⟨hvalid, rfl⟩, rfl⟩, hconvertible, rfl⟩
    exact ⟨hvalid, hconvertible, rfl⟩
  · rintro ⟨hvalid, hconvertible, rfl⟩
    exact ⟨_, ⟨_, ⟨hvalid, rfl⟩, rfl⟩, hconvertible, rfl⟩

theorem load_publish [LawfulFloatText] {data : List UInt8} (h : metadata.publish = .ok data) :
    load data = .ok metadata := by
  obtain ⟨hvalid, hconvertible, rfl⟩ := publish_ok.1 h
  have hrepresentable := hvalid.representable hconvertible
  have hspace : skipSpace ['\n'] = [] := rfl
  have hloads := loads_canonical_append (representable_envelope hrepresentable) hspace
  rw [show encodeText ['\n'] = [10] by decide] at hloads
  have hdecode : decodeEnvelopeVersioned (checkedEnvelope metadata.payload).canonical =
      .ok (protocolVersion, metadata.payload.canonical) :=
    decode_envelope_checked hrepresentable
  rw [load, hloads]
  exact bind_ok.2 ⟨_, hdecode, hvalid.from_payload hrepresentable⟩

end ClusterMetadata

end

end Akasha.Distributed.Published

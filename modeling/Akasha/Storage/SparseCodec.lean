import Akasha.Document.PointCodec
import Akasha.Lib.Slots
import Akasha.Storage.SparseStore
import Mathlib.Data.List.Sort

/-!
# Encoding sparse segments

`encode_sparse_segment` beside `read_sparse_segment`, and `latest_sparse_records`, which collapses
a log to the newest mutation of every point. Both put records in the order of their identifiers by
the same insertion sort. `read_encode_sparse_segment` is the round trip, and
`latest_sparse_records_spec` says that what is left are the last records.
-/

namespace Akasha.Storage

open Lib List

/-! ## Encoding -/

/-- `_write_elements` behind the number of elements. -/
def elementsBytes (elements : List SparseElement) : List UInt8 :=
  leBytes 4 elements.length ++ elements.flatMap sparseElementBytes

/-- The elements of a mutation: none for a delete, a valid vector for an upsert. -/
def checkElements (message : String) (record : SparseWalRecord) : Except String Unit :=
  if record.isDelete then require (record.elements = []) message
  else validateSparse record.elements

/-- The insertion sort by identifier: in the order of the list, each record is swapped towards the
front while the one before it has a greater identifier. The sorted part is held back to front. -/
def sortById (records : List SparseWalRecord) : List SparseWalRecord :=
  (records.reverse.insertionSort fun later earlier => earlier.id ≤ later.id).reverse

/-- The first loop of `encode_sparse_segment`. -/
def checkSegmentRecord (kind : Nat) (first last : UInt64) (record : SparseWalRecord) :
    Except String Unit := do
  require (record.sequence ≠ 0 ∧ first ≤ record.sequence ∧ record.sequence ≤ last)
    "invalid sparse segment record sequence"
  require (record.isDelete → kind ≠ 1) "sparse base segment cannot contain deletes"
  checkElements "sparse delete cannot contain elements" record

/-- One record of a sparse segment. -/
def sparseRecordBytes (record : SparseWalRecord) : List UInt8 :=
  i64Bytes record.id ++ (u64Bytes record.sequence ++ (leBytes 1 (if record.isDelete then 2 else 1) ++
    (leBytes 1 0 ++ (leBytes 2 0 ++ elementsBytes record.elements))))

/-- What stands before the records. -/
def sparsePrefix (kind count : Nat) (first last : UInt64) : List UInt8 :=
  sparseMagic ++ (leBytes 2 2 ++ (leBytes 2 kind ++ (leBytes 8 count ++
    (u64Bytes first ++ u64Bytes last))))

/-- `encode_sparse_segment`. -/
def encodeSparseSegment (kind : Nat) (first last : UInt64) (records : List SparseWalRecord) :
    Except String (List UInt8) := do
  require (kind = 1 ∨ kind = 2) "unsupported sparse segment kind"
  require (first ≤ last) "sparse segment sequence range is invalid"
  checkEach records (checkSegmentRecord kind first last)
  require ((sortById records).IsChain (·.id ≠ ·.id)) "sparse segment point IDs must be unique"
  pure (withChecksum (sparsePrefix kind (sortById records).length first last ++
    (sortById records).flatMap sparseRecordBytes))

/-- The first loop of `latest_sparse_records`, after the last sequence and with what was collected:
the record of an identifier replaces the earlier one. -/
def collectLatest :
    Option UInt64 → List SparseWalRecord → List SparseWalRecord →
      Except String (List SparseWalRecord)
  | _, latest, [] => pure latest
  | previous, latest, record :: records => do
      require (record.sequence ≠ 0) "sparse mutation sequence must be positive"
      require (∀ earlier ∈ previous, earlier < record.sequence)
        "sparse mutation sequences must increase"
      checkElements "sparse delete cannot contain elements" record
      collectLatest (some record.sequence) (putBy (·.id) latest record) records

/-- `latest_sparse_records`. -/
def latestSparseRecords (records : List SparseWalRecord) : Except String (List SparseWalRecord) := do
  let latest ← collectLatest none [] records
  pure (sortById latest)

/-! ## Order -/

instance : Std.Total fun later earlier : SparseWalRecord => earlier.id ≤ later.id :=
  ⟨fun a b => Int64.le_total b.id a.id⟩

instance : IsTrans SparseWalRecord fun later earlier => earlier.id ≤ later.id :=
  ⟨fun _ _ _ hab hbc => Int64.le_trans hbc hab⟩

theorem sort_by_id_perm (records : List SparseWalRecord) : (sortById records).Perm records :=
  (reverse_perm _).trans ((perm_insertionSort _ _).trans (reverse_perm _))

theorem sort_by_id_sorted (records : List SparseWalRecord) :
    (sortById records).Pairwise (·.id ≤ ·.id) :=
  pairwise_reverse.2 (pairwise_insertionSort _ _)

variable {records : List SparseWalRecord}

theorem sort_by_id_ascending (h : (records.map (·.id)).Nodup) :
    ((sortById records).map (·.id)).Pairwise (· < ·) := by
  have hnodup : ((sortById records).map (·.id)).Nodup :=
    ((sort_by_id_perm records).map _).nodup_iff.2 h
  rw [pairwise_map]
  refine ((sort_by_id_sorted records).and (pairwise_map.1 hnodup)).imp ?_
  exact fun h => Int64.lt_of_le_of_ne h.1 h.2

theorem sorted_unique (hsorted : records.Pairwise (·.id ≤ ·.id))
    (hchain : records.IsChain (·.id ≠ ·.id)) :
    (records.map (·.id)).Pairwise (· < ·) := by
  rw [pairwise_map]
  induction hchain with
  | nil => exact .nil
  | singleton record => exact pairwise_singleton _ _
  | @cons_cons record next records hne hchain ih =>
      obtain ⟨hrecord, hrest⟩ := pairwise_cons.1 hsorted
      have hnext := ih hrest
      have hlt : record.id < next.id := Int64.lt_of_le_of_ne (hrecord next mem_cons_self) hne
      refine pairwise_cons.2 ⟨forall_mem_cons.2 ⟨hlt, fun later hlater => ?_⟩, hnext⟩
      exact Int64.lt_trans hlt ((pairwise_cons.1 hnext).1 later hlater)

/-! ## Records -/

section

variable {kind : Nat} {first last : UInt64} {record : SparseWalRecord}

theorem length_elements_bytes (elements : List SparseElement) :
    (elementsBytes elements).length = 4 + elements.length * 12 := by
  rw [elementsBytes, length_append, length_le_bytes, length_sparse_bytes]

theorem reads_elements {elements : List SparseElement} (hcount : elements.length < 2 ^ 32)
    (hvalid : elements ≠ [] → validateSparse elements = .ok ()) :
    Reads readElements (elementsBytes elements) elements := by
  refine reads_bind (reads_u32 hcount) (reads_remaining fun left hleft => ?_)
  rw [length_sparse_bytes] at hleft
  refine reads_check (by omega) (reads_last (reads_times (fun element _ => ?_) 0) ?_)
  · exact reads_sparse_element element
  · refine reads_silent (a := ()) (reads_of_result ?_) (reads_pure elements)
    by_cases hpositive : 0 < elements.length
    · rw [if_pos hpositive]
      exact hvalid (ne_nil_of_length_pos hpositive)
    · rw [if_neg hpositive]

theorem check_elements_ok {message : String} :
    checkElements message record = .ok () ↔
      if record.isDelete then record.elements = [] else validateSparse record.elements = .ok () := by
  unfold checkElements
  split
  · exact require_ok
  · exact Iff.rfl

theorem check_elements_valid {message : String} (h : checkElements message record = .ok ()) :
    (record.isDelete = true → record.elements = []) ∧
      (record.elements ≠ [] → validateSparse record.elements = .ok ()) := by
  rw [check_elements_ok] at h
  cases hdelete : record.isDelete with
  | true =>
      rw [hdelete, if_pos rfl] at h
      exact ⟨fun _ => h, fun hne => absurd h hne⟩
  | false =>
      rw [hdelete, if_neg (by decide)] at h
      exact ⟨nofun, fun _ => h⟩

theorem operation_byte (isDelete : Bool) : (if isDelete then 2 else 1) < 2 ^ 8 ∧
    ((if isDelete then 2 else 1) = 1 ∨ (if isDelete then 2 else 1) = 2) ∧
      decide ((if isDelete then 2 else 1) = 2) = isDelete := by
  cases isDelete <;> decide

theorem reads_sparse_records {header : SparseHeader} {previous : Option Int64}
    (hchecked : ∀ record ∈ records,
      checkSegmentRecord header.kind header.minSequence header.maxSequence record = .ok ())
    (hcount : ∀ record ∈ records, record.elements.length < 2 ^ 32)
    (hprevious : ∀ earlier ∈ previous, ∀ record ∈ records, earlier < record.id)
    (hascending : (records.map (·.id)).Pairwise (· < ·)) :
    Reads (readSparseRecords header records.length previous) (records.flatMap sparseRecordBytes)
      records := by
  induction records generalizing previous with
  | nil => exact reads_pure []
  | cons record records ih =>
      obtain ⟨hrecord, hrecords⟩ := forall_mem_cons.1 hchecked
      obtain ⟨hfew, hcounts⟩ := forall_mem_cons.1 hcount
      obtain ⟨hbelow, hlater⟩ := pairwise_cons.1 hascending
      simp only [checkSegmentRecord, bind_ok, exists_unit, require_ok] at hrecord
      obtain ⟨hsequence, hbase, helements⟩ := hrecord
      obtain ⟨hempty, hvalid⟩ := check_elements_valid helements
      obtain ⟨hbyte, hoperation, hdelete⟩ := operation_byte record.isDelete
      have hdeletes : (if record.isDelete then 2 else 1) = 2 → record.isDelete = true :=
        fun h => by rw [← hdelete, h]; rfl
      rw [flatMap_cons, length_cons, readSparseRecords, sparseRecordBytes,
        append_assoc, append_assoc, append_assoc, append_assoc,
        append_assoc]
      refine reads_bind (reads_i64 record.id) (reads_check ?_ ?_)
      · exact fun earlier hearlier => hprevious earlier hearlier record mem_cons_self
      refine reads_bind (reads_u64 record.sequence) (reads_check hsequence ?_)
      refine reads_bind (reads_unsigned hbyte) (reads_check hoperation ?_)
      refine reads_bind (reads_unsigned (by decide)) (reads_bind (reads_u16 (by decide)) ?_)
      refine reads_check ⟨rfl, rfl⟩ (reads_bind (reads_elements hfew hvalid) ?_)
      refine reads_check (fun h => hbase (hdeletes h)) (reads_check (fun h => hempty (hdeletes h)) ?_)
      refine reads_last (ih hrecords hcounts ?_ hlater) ?_
      · rintro earlier ⟨⟩ later hmem
        exact hbelow later.id (mem_map_of_mem hmem)
      · rw [hdelete]
        exact reads_pure _

/-! ## The whole segment -/

theorem length_sparse_record (record : SparseWalRecord) :
    (sparseRecordBytes record).length = 24 + record.elements.length * 12 := by
  simp only [sparseRecordBytes, i64Bytes, u64Bytes, length_append, length_le_bytes,
    length_elements_bytes]
  omega

theorem length_sparse_prefix (count : Nat) : (sparsePrefix kind count first last).length = 32 := by
  simp [sparsePrefix, sparseMagic, u64Bytes]

theorem reads_sparse_header {count size : Nat} (hkind : kind = 1 ∨ kind = 2)
    (hrange : first ≤ last) (hcount : count < 2 ^ 63) (hsize : 36 + count * 24 ≤ size) :
    Reads (readSparseHeader size) (sparsePrefix kind count first last)
      ⟨kind, count, first, last⟩ := by
  unfold readSparseHeader sparsePrefix
  refine reads_bind (reads_span rfl) (reads_check rfl ?_)
  refine reads_bind (reads_u16 (by decide)) (reads_check rfl ?_)
  refine reads_bind (reads_u16 (by omega)) (reads_check hkind ?_)
  refine reads_bind (reads_unsigned (by omega)) (reads_check hcount (reads_check (by omega) ?_))
  exact reads_bind (reads_u64 first) (reads_last (reads_u64 last)
    (reads_check hrange (reads_pure _)))

theorem read_sparse_parts {header : SparseHeader} {front rest : List UInt8}
    (hheader : Reads (readSparseHeader (withChecksum (front ++ rest)).length) front header)
    (hsize : 36 ≤ (withChecksum (front ++ rest)).length)
    (hrecords : Reads (readSparseRecords header header.count none) rest records) :
    readSparseSegment (withChecksum (front ++ rest)) =
      .ok ⟨header, (crc32 ((front ++ rest).drop 4)).toNat, records⟩ := by
  have hcrc : (crc32 ((front ++ rest).drop 4)).toNat < 256 ^ 4 := UInt32.toNat_lt _
  have hclosing := reads_u32 hcrc []
  rw [append_nil] at hclosing
  refine bind_ok.2 ⟨(header, rest ++ leBytes 4 _), ?_,
    bind_ok.2 ⟨_, hrecords _, bind_ok.2 ⟨_, hclosing, rfl⟩⟩⟩
  refine bind_ok.2 ⟨(), require_ok.2 hsize,
    bind_ok.2 ⟨(), (check_file_checksum_ok hcrc).2 rfl, ?_⟩⟩
  have hread := hheader (rest ++ leBytes 4 (crc32 ((front ++ rest).drop 4)).toNat)
  rwa [← append_assoc] at hread

/-- A sparse segment that is encoded is read back with the same header values and the same
records, in the order of their identifiers. -/
theorem read_encode_sparse_segment {bytes : List UInt8}
    (h : encodeSparseSegment kind first last records = .ok bytes) (hsize : bytes.length < 2 ^ 32) :
    ∃ segment, readSparseSegment bytes = .ok segment ∧ segment.header.kind = kind ∧
      segment.header.minSequence = first ∧ segment.header.maxSequence = last ∧
        segment.records.Perm records ∧ (segment.records.map (·.id)).Pairwise (· < ·) := by
  simp only [encodeSparseSegment, bind_ok, exists_unit, require_ok, check_each_ok,
    pure_ok] at h
  obtain ⟨hkind, hrange, hchecked, hunique, rfl⟩ := h
  have hperm := sort_by_id_perm records
  have hascending := sorted_unique (sort_by_id_sorted records) hunique
  have hbytes : (withChecksum (sparsePrefix kind (sortById records).length first last ++
      (sortById records).flatMap sparseRecordBytes)).length =
        36 + ((sortById records).flatMap sparseRecordBytes).length := by
    rw [withChecksum, length_append, length_append, length_sparse_prefix,
      length_le_bytes]
    omega
  have hwidth : ∀ record ∈ sortById records, 24 ≤ (sparseRecordBytes record).length :=
    fun record _ => by rw [length_sparse_record]; omega
  have hmin := length_flat_map_ge hwidth
  refine ⟨_, read_sparse_parts (reads_sparse_header hkind hrange (by omega) (by omega)) (by omega)
    (reads_sparse_records (fun record hrecord => ?_) (fun record hrecord => ?_) nofun hascending),
    rfl, rfl, rfl, hperm, hascending⟩
  · exact hchecked record (hperm.mem_iff.1 hrecord)
  · have hle := (sublist_flatten_of_mem (mem_map_of_mem (f := sparseRecordBytes)
      hrecord)).length_le
    rw [length_sparse_record, ← flatMap_def] at hle
    omega

end

/-! ## The latest records -/

/-- A record that no later one of its identifier follows. -/
def IsLast (records : List SparseWalRecord) (record : SparseWalRecord) : Prop :=
  ∃ earlier later, records = earlier ++ record :: later ∧ ∀ other ∈ later, other.id ≠ record.id

theorem find_last_iff {id : Int64} {record : SparseWalRecord} :
    findBy (·.id) id records.reverse = some record ↔ record.id = id ∧ IsLast records record := by
  unfold findBy IsLast
  rw [find?_eq_some_iff_append]
  simp only [decide_eq_true_eq, Bool.not_eq_true', decide_eq_false_iff_not]
  constructor
  · rintro ⟨hid, later, earlier, hsplit, hlater⟩
    refine ⟨hid, earlier.reverse, later.reverse, ?_, fun other hother => ?_⟩
    · rw [reverse_eq_iff.1 hsplit]
      simp
    · rw [hid]
      exact hlater other (mem_reverse.1 hother)
  · rintro ⟨hid, earlier, later, rfl, hlater⟩
    refine ⟨hid, later.reverse, earlier.reverse, by simp, fun other hother => ?_⟩
    rw [← hid]
    exact hlater other (mem_reverse.1 hother)

theorem collect_latest_eq {records latest result : List SparseWalRecord} {previous : Option UInt64}
    (h : collectLatest previous latest records = .ok result) :
    result = records.foldl (putBy (·.id)) latest := by
  induction records generalizing previous latest with
  | nil => exact (pure_ok.1 h).symm
  | cons record records ih =>
      simp only [collectLatest, bind_ok, exists_unit, require_ok] at h
      exact ih h.2.2.2

theorem latest_sparse_records_spec {records result : List SparseWalRecord}
    (h : latestSparseRecords records = .ok result) :
    (result.map (·.id)).Pairwise (· < ·) ∧
      ∀ record, record ∈ result ↔ IsLast records record := by
  simp only [latestSparseRecords, bind_ok, pure_ok] at h
  obtain ⟨latest, hcollect, rfl⟩ := h
  obtain rfl := collect_latest_eq hcollect
  have hnodup : ((records.foldl (putBy SparseWalRecord.id) []).map (·.id)).Nodup :=
    fold_put_nodup records nodup_nil
  refine ⟨sort_by_id_ascending hnodup, fun record => ?_⟩
  have hfind := find_by_eq_some hnodup (k := record.id) (x := record)
  rw [find_fold_put_last, show findBy SparseWalRecord.id record.id [] = none from rfl,
    Option.or_none, find_last_iff, eq_self_iff_true, true_and, and_true] at hfind
  exact (sort_by_id_perm _).mem_iff.trans hfind.symm

/-- A log of accepted mutations with increasing sequences is collapsed. -/
theorem latest_sparse_records_returns (hpositive : ∀ record ∈ records, record.sequence ≠ 0)
    (hchecked : ∀ record ∈ records,
      checkElements "sparse delete cannot contain elements" record = .ok ())
    (hascending : records.Pairwise (·.sequence < ·.sequence)) :
    ∃ result, latestSparseRecords records = .ok result := by
  suffices hcollect : ∀ (previous : Option UInt64) (latest : List SparseWalRecord),
      (∀ earlier ∈ previous, ∀ record ∈ records, earlier < record.sequence) →
        ∃ result, collectLatest previous latest records = .ok result by
    obtain ⟨latest, hlatest⟩ := hcollect none [] nofun
    exact ⟨_, bind_ok.2 ⟨latest, hlatest, rfl⟩⟩
  induction records with
  | nil => exact fun _ latest _ => ⟨latest, rfl⟩
  | cons record records ih =>
      intro previous latest hprevious
      obtain ⟨hrecord, hrecords⟩ := forall_mem_cons.1 hpositive
      obtain ⟨helements, hchecks⟩ := forall_mem_cons.1 hchecked
      obtain ⟨hbelow, hlater⟩ := pairwise_cons.1 hascending
      obtain ⟨result, hresult⟩ := ih hrecords hchecks hlater (some record.sequence)
        (putBy (·.id) latest record) (by rintro earlier ⟨⟩; exact hbelow)
      refine ⟨result, ?_⟩
      simp only [collectLatest, bind_ok, exists_unit, require_ok]
      exact ⟨hrecord, fun earlier hearlier => hprevious earlier hearlier record mem_cons_self,
        helements, hresult⟩

end Akasha.Storage

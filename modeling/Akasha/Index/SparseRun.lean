import Akasha.Index.Sparse

/-!
# Runs of the sparse index

Upserts and deletes in any order from an empty index. A rejected upsert changes nothing. What is
stored is a map from points to vectors, and `sparse_index_postings` says that posting lists, slot
maps and scores are those of that map.
-/

namespace Akasha.Index

open Lib Compute

/-- One call on a sparse index. -/
inductive SparseChange where
  | upsert (id : Int64) (elements : List SparseElement)
  | delete (id : Int64)

namespace SparseChange

/-- The index after a call, which may be rejected. -/
def apply (index : SparseIndex) : SparseChange → SparseIndex
  | .upsert id elements =>
      match index.upsert id elements with
      | .ok next => next
      | .error _ => index
  | .delete id => index.delete id

/-- The stored vectors after a call. -/
def store (stored : Int64 → Option (List SparseElement)) :
    SparseChange → Int64 → Option (List SparseElement)
  | .upsert id elements =>
      match validateSparse elements with
      | .ok _ => Function.update stored id (some elements)
      | .error _ => stored
  | .delete id => Function.update stored id none

/-- The index after the calls, from an empty one. -/
def run (changes : List SparseChange) : SparseIndex :=
  changes.foldl apply .empty

/-- The vectors that the calls leave stored. -/
def storedAfter (changes : List SparseChange) : Int64 → Option (List SparseElement) :=
  changes.foldl store fun _ => none

/-- A call keeps an index of the stored vectors one. -/
theorem apply_holds {index : SparseIndex} {stored : Int64 → Option (List SparseElement)}
    (hvalid : index.Valid) (hstored : index.vectorOf = stored) (change : SparseChange) :
    (change.apply index).Valid ∧ (change.apply index).vectorOf = change.store stored := by
  cases change with
  | upsert id elements =>
      unfold apply store
      cases hcheck : validateSparse elements with
      | ok u =>
          obtain ⟨next, hnext, hvalid', -, hvectors⟩ :=
            SparseIndex.upsert_valid hvalid id (show validateSparse elements = .ok () from hcheck)
          simp only [hnext, hcheck]
          refine ⟨hvalid', funext fun other => ?_⟩
          rw [hvectors, Function.update_apply, hstored]
      | error e =>
          have hreject : index.upsert id elements = .error e := by
            unfold SparseIndex.upsert
            rw [hcheck]
            rfl
          simp only [hreject, hcheck]
          exact ⟨hvalid, hstored⟩
  | delete id =>
      obtain ⟨hvalid', -, hvectors, -⟩ := SparseIndex.delete_valid hvalid id
      refine ⟨hvalid', funext fun other => ?_⟩
      show (index.delete id).vectorOf other = Function.update stored id none other
      rw [hvectors, Function.update_apply, hstored]

theorem run_holds (changes : List SparseChange) :
    (run changes).Valid ∧ (run changes).vectorOf = storedAfter changes := by
  have hrun : ∀ (changes : List SparseChange) (index : SparseIndex)
      (stored : Int64 → Option (List SparseElement)), index.Valid → index.vectorOf = stored →
      (changes.foldl apply index).Valid ∧
        (changes.foldl apply index).vectorOf = changes.foldl store stored := by
    intro changes
    induction changes with
    | nil => exact fun _ _ hvalid hstored => ⟨hvalid, hstored⟩
    | cons change changes ih =>
        intro index stored hvalid hstored
        obtain ⟨hvalid', hstored'⟩ := apply_holds hvalid hstored change
        exact ih _ _ hvalid' hstored'
  exact hrun changes .empty _ SparseIndex.empty_valid rfl

end SparseChange

open SparseChange

variable {index : SparseIndex} {stored : Int64 → Option (List SparseElement)}

theorem mem_records_iff (hvalid : index.Valid) (hstored : index.vectorOf = stored)
    {id : Int64} {elements : List SparseElement} :
    ⟨id, elements⟩ ∈ index.records ↔ stored id = some elements := by
  rw [← hstored]
  unfold SparseIndex.vectorOf
  rw [Option.map_eq_some_iff]
  constructor
  · exact fun hmem => ⟨_, find_by_of_mem (indexed_nodup hvalid.indexed) hmem, rfl⟩
  · rintro ⟨record, hfind, rfl⟩
    have hid : record.id = id := find_by_key hfind
    rw [← hid]
    exact mem_of_find_by hfind

theorem mem_postings_iff (hvalid : index.Valid) (hstored : index.vectorOf = stored)
    {term : Int64} {posting : SparsePosting} :
    posting ∈ index.postingsOf term ↔ ∃ elements, stored posting.id = some elements ∧
      ⟨term, posting.weight⟩ ∈ elements := by
  rw [(hvalid.lists.postings_perm term).mem_iff]
  unfold SparseIndex.recordPostings
  rw [List.mem_filterMap]
  constructor
  · rintro ⟨record, hrecord, hmap⟩
    obtain ⟨weight, hweight, rfl⟩ := Option.map_eq_some_iff.1 hmap
    exact ⟨record.elements, (mem_records_iff hvalid hstored).1 hrecord,
      (SparseIndex.weight_of_iff (hvalid.ascending record hrecord)).1 hweight⟩
  · rintro ⟨elements, hfound, hmem⟩
    have hrecord := (mem_records_iff hvalid hstored).2 hfound
    have hweight := (SparseIndex.weight_of_iff (hvalid.ascending _ hrecord)).2 hmem
    exact ⟨_, hrecord, Option.map_eq_some_iff.2 ⟨_, hweight, rfl⟩⟩

/-- After any upserts and deletes the slot maps are bijections with their lists, a term has a list
exactly when a stored vector has the term, the list holds one posting with the current weight for
each such vector and nothing else, and for every valid query `scores` returns each point that
shares a term with the query once, with the value of `_sparse_dot` for its stored vector. -/
theorem sparse_index_postings (changes : List SparseChange) :
    Indexed (·.id) (run changes).records (run changes).recordSlots ∧
    Indexed (·.termId) (run changes).terms (run changes).termSlots ∧
    (∀ id elements, ⟨id, elements⟩ ∈ (run changes).records ↔
      storedAfter changes id = some elements) ∧
    (∀ list ∈ (run changes).terms, list.postings ≠ [] ∧ (list.postings.map (·.id)).Nodup ∧
      ∀ posting, posting ∈ list.postings ↔ ∃ elements,
        storedAfter changes posting.id = some elements ∧
          ⟨list.termId, posting.weight⟩ ∈ elements) ∧
    (∀ id elements element, storedAfter changes id = some elements → element ∈ elements →
      ∃ list ∈ (run changes).terms, list.termId = element.termId) ∧
    ∀ (S : Type) (ops : SparseOps S) (query : List SparseElement), validateSparse query = .ok () →
      ∃ scores, (run changes).scores ops query = .ok scores ∧ (scores.map (·.id)).Nodup ∧
        ∀ entry, entry ∈ scores ↔ ∃ elements, storedAfter changes entry.id = some elements ∧
          sparseDot ops query elements = some entry.score := by
  obtain ⟨hvalid, hstored⟩ := run_holds changes
  refine ⟨hvalid.indexed, hvalid.lists.indexed, fun id elements => mem_records_iff hvalid hstored,
    fun list hlist => ?_, fun id elements element hfound hmem => ?_, fun S ops query hquery => ?_⟩
  · have hpostings := SparseIndex.postings_of_list hvalid.lists.indexed hlist
    rw [← hpostings]
    exact ⟨hpostings ▸ hvalid.lists.nonempty list hlist,
      SparseIndex.postings_nodup hvalid list.termId,
      fun posting => mem_postings_iff hvalid hstored⟩
  · -- A term without a list has no postings.
    have hposting : (⟨id, element.weight⟩ : SparsePosting) ∈
        (run changes).postingsOf element.termId :=
      (mem_postings_iff hvalid hstored).2 ⟨elements, hfound, hmem⟩
    rw [SparseIndex.postings_of_eq hvalid.lists.indexed] at hposting
    cases hfind : findBy (·.termId) element.termId (run changes).terms with
    | none =>
        rw [hfind] at hposting
        exact absurd hposting List.not_mem_nil
    | some list => exact ⟨list, mem_of_find_by hfind, find_by_key hfind⟩
  · obtain ⟨scores, hscores, hnodup, hentries⟩ := SparseIndex.scores_ok hvalid ops hquery
    refine ⟨scores, hscores, hnodup, fun entry => (hentries entry).trans ?_⟩
    have hdot : ∀ record ∈ (run changes).records,
        sparseDot ops query record.elements = sharedScore ops query record.elements :=
      fun record hrecord => sparse_dot_eq ops (validate_sparse_ascending hquery)
        (hvalid.ascending record hrecord)
    constructor
    · rintro ⟨record, hrecord, hid, hscore⟩
      refine ⟨record.elements, ?_, (hdot record hrecord).trans hscore⟩
      rw [← hid]
      exact (mem_records_iff hvalid hstored).1 hrecord
    · rintro ⟨elements, hfound, hscore⟩
      have hrecord := (mem_records_iff hvalid hstored).2 hfound
      exact ⟨_, hrecord, rfl, (hdot _ hrecord).symm.trans hscore⟩

/-- Three vectors, of which one is replaced and one is deleted. -/
def sampleChanges : List SparseChange :=
  [.upsert 1 [⟨7, ⟨0x3F800000⟩⟩], .upsert 2 [⟨7, ⟨0x40000000⟩⟩, ⟨9, ⟨0x3F800000⟩⟩],
    .upsert 3 [⟨9, ⟨0x3F800000⟩⟩], .upsert 2 [⟨9, ⟨0x40000000⟩⟩], .delete 1]

/-- Two points share the term of the query that is left. -/
theorem sparse_index_postings_sample : ∃ scores,
    (run sampleChanges).scores (⟨fun lhs rhs => [(lhs.bits, rhs.bits)], (· ++ ·)⟩ :
      SparseOps (List (UInt32 × UInt32))) [⟨9, ⟨0x3F800000⟩⟩] = .ok scores ∧
      ⟨2, [(0x3F800000, 0x40000000)]⟩ ∈ scores := by
  obtain ⟨-, -, -, -, -, hscores⟩ := sparse_index_postings sampleChanges
  obtain ⟨scores, hrun, -, hentries⟩ := hscores _ ⟨fun lhs rhs => [(lhs.bits, rhs.bits)],
    (· ++ ·)⟩ [⟨9, ⟨0x3F800000⟩⟩] (by decide +kernel)
  exact ⟨scores, hrun, (hentries _).2 ⟨[⟨9, ⟨0x40000000⟩⟩], by decide +kernel, by decide +kernel⟩⟩

end Akasha.Index

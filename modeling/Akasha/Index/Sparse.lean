import Akasha.Compute.TopK
import Akasha.Document.Value
import Akasha.Lib.SlotMap

/-!
# Sparse vectors by their terms

`index/sparse.mojo` and the merge of `read_generation.mojo`: a posting list for each term, and the
scores of all records that share a term with a query. Products and sums are parameters, so a
score is the list of its contributions in the order in which they are added. Both ways to a score
add the terms that query and vector share in the order of the query (`sparse_dot_eq`,
`lookup_scores`).
-/

namespace Akasha.Index

open Lib Compute List Option

/-- The product of two weights and the sum of two scores. -/
structure SparseOps (S : Type) where
  product : F32 → F32 → S
  add : S → S → S

variable {S : Type}

/-! ## The terms that two vectors share -/

/-- The weight of a term, if the vector has the term. -/
def weightOf (elements : List SparseElement) (term : Int64) : Option F32 :=
  (elements.find? (·.termId = term)).map (·.weight)

/-- The contributions of the shared terms in the order of the query. -/
def contributions (ops : SparseOps S) (query elements : List SparseElement) : List S :=
  query.filterMap fun item => (weightOf elements item.termId).map (ops.product item.weight ·)

/-- Add a contribution to a score that may not be there yet. -/
def addTo (ops : SparseOps S) (score : Option S) (contribution : S) : Option S :=
  match score with
  | some value => some (ops.add value contribution)
  | none => some contribution

/-- The score of a vector for a query: no score when they share no term. -/
def sharedScore (ops : SparseOps S) (query elements : List SparseElement) : Option S :=
  (contributions ops query elements).foldl (addTo ops) none

/-- The terms of a vector ascend. -/
def Ascending (elements : List SparseElement) : Prop :=
  elements.Pairwise (·.termId.toInt < ·.termId.toInt)

variable {elements : List SparseElement}

theorem validate_sparse_after_ok {previous : Int} {u : Unit}
    (h : validateSparseAfter previous elements = .ok u) :
    Ascending elements ∧ ∀ e ∈ elements, previous < e.termId.toInt := by
  induction elements generalizing previous with
  | nil => exact ⟨List.Pairwise.nil, nofun⟩
  | cons element elements ih =>
      simp only [validateSparseAfter, bind_ok, exists_unit, require_ok] at h
      obtain ⟨-, hprevious, -, hrest⟩ := h
      obtain ⟨hascending, hafter⟩ := ih hrest
      refine ⟨List.Pairwise.cons hafter hascending, forall_mem_cons.2 ⟨hprevious, ?_⟩⟩
      exact fun e he => hprevious.trans (hafter e he)

theorem validate_sparse_ascending (h : validateSparse elements = .ok ()) : Ascending elements := by
  unfold validateSparse at h
  simp only [bind_ok, exists_unit, require_ok] at h
  exact (validate_sparse_after_ok h.2).1

/-! ## Merging two ascending vectors -/

/-- The loop of `_sparse_dot` over the query, with the elements from the position on. -/
def sparseDotFrom (ops : SparseOps S) :
    Option S → List SparseElement → List SparseElement → Option S
  | score, _, [] => score
  | score, elements, item :: query =>
      match elements.dropWhile (·.termId.toInt < item.termId.toInt) with
      | [] => score
      | element :: rest =>
          if element.termId ≠ item.termId then sparseDotFrom ops score (element :: rest) query
          else
            sparseDotFrom ops (addTo ops score (ops.product item.weight element.weight))
              (element :: rest) query

/-- `_sparse_dot`. -/
def sparseDot (ops : SparseOps S) (query elements : List SparseElement) : Option S :=
  sparseDotFrom ops none elements query

theorem weight_of_drop_while {bound term : Int64} (h : bound.toInt ≤ term.toInt) :
    weightOf (elements.dropWhile (·.termId.toInt < bound.toInt)) term = weightOf elements term := by
  unfold weightOf
  induction elements with
  | nil => rfl
  | cons element elements ih =>
      rw [dropWhile_cons]
      by_cases hlt : element.termId.toInt < bound.toInt
      · have hne : element.termId ≠ term := by
          rintro rfl
          omega
        rw [if_pos (by simpa using hlt), ih, find?_cons, decide_eq_false hne]
      · rw [if_neg (by simpa using hlt)]

theorem weight_of_cons_self (element : SparseElement) (elements : List SparseElement) :
    weightOf (element :: elements) element.termId = some element.weight := by
  simp [weightOf]

variable {element : SparseElement}

theorem weight_of_head {rest : List SparseElement} {term : Int64}
    (hascending : Ascending (element :: rest)) (hge : term.toInt ≤ element.termId.toInt)
    (hne : element.termId ≠ term) : weightOf (element :: rest) term = none := by
  unfold weightOf
  rw [map_eq_none_iff, find?_eq_none]
  intro other hother heq
  have hterm : other.termId = term := by simpa using heq
  rcases mem_cons.1 hother with rfl | hother
  · exact hne hterm
  · have hlt := (pairwise_cons.1 hascending).1 other hother
    rw [hterm] at hlt
    omega

/-- The merge adds the contributions of the shared terms in order. -/
theorem sparse_dot_from_eq (ops : SparseOps S) {query : List SparseElement}
    (hquery : Ascending query) (helements : Ascending elements) (score : Option S) :
    sparseDotFrom ops score elements query =
      (contributions ops query elements).foldl (addTo ops) score := by
  induction query generalizing elements score with
  | nil => rfl
  | cons item query ih =>
      obtain ⟨hafter, hrest⟩ := pairwise_cons.1 hquery
      have hdropped : Ascending (elements.dropWhile (·.termId.toInt < item.termId.toInt)) :=
        List.Pairwise.sublist (dropWhile_sublist _) helements
      -- The elements that were passed are below every later term of the query.
      have hsame : ∀ later ∈ item :: query,
          weightOf (elements.dropWhile (·.termId.toInt < item.termId.toInt)) later.termId =
            weightOf elements later.termId := by
        intro later hlater
        refine weight_of_drop_while ?_
        rcases mem_cons.1 hlater with rfl | hlater
        · exact le_rfl
        · exact (hafter later hlater).le
      have hcontributions : ∀ items ⊆ item :: query, contributions ops items
          (elements.dropWhile (·.termId.toInt < item.termId.toInt)) =
            contributions ops items elements := by
        intro items hitems
        exact filterMap_congr fun later hlater => by rw [hsame later (hitems hlater)]
      rw [← hcontributions _ (List.Subset.refl _)]
      unfold sparseDotFrom
      cases hleft : elements.dropWhile (·.termId.toInt < item.termId.toInt) with
      | nil =>
          have hnone : contributions ops (item :: query) [] = [] :=
            filterMap_eq_nil_iff.2 fun _ _ => rfl
          rw [hnone]
          rfl
      | cons element rest =>
          have hge : item.termId.toInt ≤ element.termId.toInt := by
            have := head?_dropWhile_not
              (fun e : SparseElement => decide (e.termId.toInt < item.termId.toInt)) elements
            rw [hleft] at this
            simpa using this
          rw [hleft] at hdropped
          simp only
          by_cases hne : element.termId ≠ item.termId
          · have hmissing := weight_of_head hdropped hge hne
            rw [if_pos hne, ih hrest hdropped]
            unfold contributions
            rw [filterMap_cons, hmissing]
            rfl
          · have hterm : element.termId = item.termId := not_not.1 hne
            rw [if_neg hne, ih hrest hdropped]
            unfold contributions
            rw [filterMap_cons, ← hterm, weight_of_cons_self]
            rfl

theorem sparse_dot_eq (ops : SparseOps S) {query elements : List SparseElement}
    (hquery : Ascending query) (helements : Ascending elements) :
    sparseDot ops query elements = sharedScore ops query elements :=
  sparse_dot_from_eq ops hquery helements none

/-! ## Posting lists -/

structure SparseRecord where
  id : Int64
  elements : List SparseElement

structure SparsePosting where
  id : Int64
  weight : F32
deriving DecidableEq

structure PostingList where
  termId : Int64
  postings : List SparsePosting

/-- `SparseIndex`. -/
structure SparseIndex where
  records : List SparseRecord
  terms : List PostingList
  recordSlots : Std.ExtTreeMap Int64 Nat
  termSlots : Std.ExtTreeMap Int64 Nat

/-- Take the first posting of a record from a list. -/
def PostingList.without (list : PostingList) (id : Int64) : PostingList :=
  match list.postings.findIdx? (·.id = id) with
  | some index => { list with postings := swapRemove list.postings index }
  | none => list

namespace SparseIndex

/-- `SparseIndex()`. -/
def empty : SparseIndex :=
  ⟨[], [], ∅, ∅⟩

/-- The loop of `delete` over the terms of the removed vector: take the record's posting, and drop
a list that has become empty. -/
def removePosting (id : Int64) (index : SparseIndex) (element : SparseElement) : SparseIndex :=
  match index.termSlots[element.termId]? with
  | none => index
  | some termIndex =>
      let terms := index.terms.modify termIndex (·.without id)
      if (terms[termIndex]?).any (·.postings.isEmpty) then
        let rest := swapRemove terms termIndex
        { index with
          terms := rest
          termSlots := reslot (·.termId) rest termIndex (index.termSlots.erase element.termId) }
      else { index with terms := terms }

/-- `delete`. -/
def delete (index : SparseIndex) (id : Int64) : SparseIndex :=
  match index.recordSlots[id]? with
  | none => index
  | some slot =>
      let removed := ((index.records[slot]?).map (·.elements)).getD []
      let rest := swapRemove index.records slot
      removed.foldl (removePosting id) { index with
        records := rest
        recordSlots := reslot (·.id) rest slot (index.recordSlots.erase id) }

/-- The loop of `upsert` over the elements: append a posting to its term's list, which may be
new. -/
def addPosting (id : Int64) (index : SparseIndex) (element : SparseElement) : SparseIndex :=
  let posting : SparsePosting := ⟨id, element.weight⟩
  match index.termSlots[element.termId]? with
  | some termIndex =>
      { index with
        terms := index.terms.modify termIndex fun list =>
          { list with postings := list.postings ++ [posting] } }
  | none =>
      { index with
        terms := index.terms ++ [⟨element.termId, [posting]⟩]
        termSlots := index.termSlots.insert element.termId index.terms.length }

/-- `upsert`. -/
def upsert (index : SparseIndex) (id : Int64) (elements : List SparseElement) :
    Except String SparseIndex := do
  validateSparse elements
  let index := index.delete id
  pure (elements.foldl (addPosting id) { index with
    records := index.records ++ [⟨id, elements⟩]
    recordSlots := index.recordSlots.insert id index.records.length })

/-- The postings of a term. -/
def postingsOf (index : SparseIndex) (term : Int64) : List SparsePosting :=
  (((index.termSlots[term]?).bind (index.terms[·]?)).map (·.postings)).getD []

/-- Add a contribution to the score of a point, which is appended when it is new. -/
def addContribution (ops : SparseOps S) : List (TopKEntry S) → Int64 → S → List (TopKEntry S)
  | [], id, contribution => [⟨id, contribution⟩]
  | entry :: entries, id, contribution =>
      if entry.id = id then ⟨id, ops.add entry.score contribution⟩ :: entries
      else entry :: addContribution ops entries id contribution

/-- The contributions of one term of the query. -/
def addTerm (ops : SparseOps S) (index : SparseIndex) (scores : List (TopKEntry S))
    (item : SparseElement) : List (TopKEntry S) :=
  (index.postingsOf item.termId).foldl (fun scores posting =>
    addContribution ops scores posting.id (ops.product item.weight posting.weight)) scores

/-- `scores`: every point that shares a term with the query. -/
def scores (ops : SparseOps S) (index : SparseIndex) (query : List SparseElement) :
    Except String (List (TopKEntry S)) := do
  validateSparse query
  pure (query.foldl (addTerm ops index) [])

/-! ### What the lists hold -/

/-- The postings of a term, from the records. -/
def recordPostings (records : List SparseRecord) (term : Int64) : List SparsePosting :=
  records.filterMap fun record =>
    (weightOf record.elements term).map fun weight => ⟨record.id, weight⟩

/-- The posting of a vector in the list of a term. -/
def ownPostings (id : Int64) (elements : List SparseElement) (term : Int64) : List SparsePosting :=
  ((weightOf elements term).map fun weight => (⟨id, weight⟩ : SparsePosting)).toList

/-- Each term has one list, no list is empty, and a list holds the wanted postings. -/
structure Lists (index : SparseIndex) (wanted : Int64 → List SparsePosting) : Prop where
  indexed : Indexed (·.termId) index.terms index.termSlots
  nonempty : ∀ list ∈ index.terms, list.postings ≠ []
  postings_perm : ∀ term, (index.postingsOf term).Perm (wanted term)

/-- An index that holds its records: each identifier has one record, and the lists hold the
records' postings. -/
structure Valid (index : SparseIndex) : Prop where
  indexed : Indexed (·.id) index.records index.recordSlots
  ascending : ∀ record ∈ index.records, Ascending record.elements
  lists : index.Lists (recordPostings index.records)

variable {index : SparseIndex} {wanted : Int64 → List SparsePosting}

theorem empty_valid : empty.Valid where
  indexed := indexed_empty
  ascending := nofun
  lists := ⟨indexed_empty, nofun, fun term => by simp [postingsOf, empty, recordPostings]⟩

theorem postings_of_eq (h : Indexed (·.termId) index.terms index.termSlots) (term : Int64) :
    index.postingsOf term = ((findBy (·.termId) term index.terms).map (·.postings)).getD [] := by
  unfold postingsOf
  rw [indexed_find h]

variable {list : PostingList}

theorem postings_of_list (h : Indexed (·.termId) index.terms index.termSlots)
    (hlist : list ∈ index.terms) : index.postingsOf list.termId = list.postings := by
  rw [postings_of_eq h, find_by_of_mem (indexed_nodup h) hlist]
  rfl

/-- Changing the list in a slot changes the postings of its term only. -/
theorem find_by_modify {terms : List PostingList} {slots : Std.ExtTreeMap Int64 Nat}
    (h : Indexed (·.termId) terms slots) {slot : Nat} (hlist : terms[slot]? = some list)
    {f : PostingList → PostingList} (hf : ∀ list, (f list).termId = list.termId) (term : Int64) :
    findBy (·.termId) term (terms.modify slot f) =
      if term = list.termId then some (f list) else findBy (·.termId) term terms := by
  rw [← indexed_find (indexed_modify h hf slot), ← indexed_find h]
  by_cases hterm : term = list.termId
  · rw [if_pos hterm, hterm, (h _ _).2 ⟨list, hlist, rfl⟩, bind_some,
      getElem?_modify_eq, hlist]
    rfl
  · rw [if_neg hterm]
    cases hother : slots[term]? with
    | none => rfl
    | some other =>
        obtain ⟨found, hfound, hkey⟩ := (h _ _).1 hother
        have hne : slot ≠ other := by
          rintro rfl
          rw [hlist] at hfound
          exact hterm (hkey.symm.trans (by rw [Option.some.inj hfound]))
        rw [bind_some, bind_some, getElem?_modify]
        simp [hne]

/-! ### Adding postings -/

/-- A posting goes to the end of its term's list. -/
theorem add_posting_lists (h : index.Lists wanted) (id : Int64) (element : SparseElement) :
    (index.addPosting id element).Lists fun term =>
      wanted term ++ if element.termId = term then [⟨id, element.weight⟩] else [] := by
  cases hslot : index.termSlots[element.termId]? with
  | some slot =>
      have hadd : index.addPosting id element = { index with
          terms := index.terms.modify slot fun list =>
            { list with postings := list.postings ++ [⟨id, element.weight⟩] } } := by
        unfold addPosting
        rw [hslot]
      rw [hadd]
      obtain ⟨list, hlist, hterm⟩ := (h.indexed _ _).1 hslot
      have hindexed := indexed_modify h.indexed (f := fun list : PostingList =>
        { list with postings := list.postings ++ [⟨id, element.weight⟩] }) (fun _ => rfl) slot
      refine ⟨hindexed, fun other hother => ?_, fun term => ?_⟩
      · obtain ⟨o, ho⟩ := mem_iff_getElem?.1 hother
        rw [getElem?_modify] at ho
        obtain ⟨old, hold, rfl⟩ := map_eq_some_iff.1 ho
        split
        · simp
        · exact h.nonempty old (mem_of_getElem? hold)
      · have hpostings := h.postings_perm term
        rw [postings_of_eq h.indexed] at hpostings
        have hfind := find_by_modify h.indexed hlist (f := fun list : PostingList =>
          { list with postings := list.postings ++ [⟨id, element.weight⟩] }) (fun _ => rfl) term
        rw [postings_of_eq hindexed]
        simp only [hfind]
        by_cases hsame : element.termId = term
        · rw [if_pos hsame, if_pos (hsame.symm.trans hterm.symm)]
          rw [← hsame, ← hterm, find_by_of_mem (indexed_nodup h.indexed)
            (mem_of_getElem? hlist)] at hpostings
          rw [← hsame, ← hterm]
          exact hpostings.append_right _
        · rw [if_neg hsame, if_neg fun heq => hsame (hterm.symm.trans heq.symm), append_nil]
          exact hpostings
  | none =>
      have hadd : index.addPosting id element = { index with
          terms := index.terms ++ [⟨element.termId, [⟨id, element.weight⟩]⟩]
          termSlots := index.termSlots.insert element.termId index.terms.length } := by
        unfold addPosting
        rw [hslot]
      rw [hadd]
      have hnew : element.termId ∉ index.terms.map (·.termId) :=
        (indexed_none_iff h.indexed).1 hslot
      have hindexed := indexed_push h.indexed
        (x := (⟨element.termId, [⟨id, element.weight⟩]⟩ : PostingList)) hnew
      refine ⟨hindexed, fun other hother => ?_, fun term => ?_⟩
      · rcases mem_append.1 hother with hother | hother
        · exact h.nonempty other hother
        · rw [mem_singleton.1 hother]
          exact cons_ne_nil _ _
      · have hpostings := h.postings_perm term
        rw [postings_of_eq h.indexed] at hpostings
        rw [postings_of_eq hindexed]
        unfold findBy at hpostings ⊢
        rw [find?_append]
        by_cases hsame : element.termId = term
        · have hnone : index.terms.find? (·.termId = term) = none :=
            find_by_none.2 (hsame ▸ hnew)
          rw [hnone] at hpostings ⊢
          rw [if_pos hsame]
          simpa [hsame] using hpostings.append_right [(⟨id, element.weight⟩ : SparsePosting)]
        · simpa [hsame] using hpostings

theorem weight_of_cons (element : SparseElement) (elements : List SparseElement) (term : Int64) :
    weightOf (element :: elements) term =
      if element.termId = term then some element.weight else weightOf elements term := by
  unfold weightOf
  rw [find?_cons]
  by_cases h : element.termId = term <;> simp [h]

theorem weight_of_before (hafter : ∀ later ∈ elements, element.termId.toInt < later.termId.toInt) :
    weightOf elements element.termId = none := by
  unfold weightOf
  rw [map_eq_none_iff, find?_eq_none]
  intro later hlater heq
  have hlt := hafter later hlater
  have hterm : later.termId = element.termId := by simpa using heq
  rw [hterm] at hlt
  omega

theorem weight_of_iff (h : Ascending elements) {term : Int64} {weight : F32} :
    weightOf elements term = some weight ↔ ⟨term, weight⟩ ∈ elements := by
  induction elements with
  | nil => simp [weightOf]
  | cons element elements ih =>
      obtain ⟨hafter, hrest⟩ := pairwise_cons.1 h
      rw [weight_of_cons, mem_cons]
      by_cases hterm : element.termId = term
      · have hmissing := weight_of_before hafter
        rw [hterm] at hmissing
        rw [if_pos hterm, ← ih hrest, hmissing]
        obtain ⟨termId, value⟩ := element
        obtain rfl : termId = term := hterm
        simp [eq_comm]
      · have hne : (⟨term, weight⟩ : SparseElement) ≠ element := fun heq => hterm (by rw [← heq])
        rw [if_neg hterm, ih hrest]
        simp [hne]

theorem add_all_lists (id : Int64) {elements : List SparseElement}
    (hascending : Ascending elements) (h : index.Lists wanted) :
    (elements.foldl (addPosting id) index).Lists fun term =>
      wanted term ++ ownPostings id elements term := by
  induction elements generalizing index wanted with
  | nil => simpa [ownPostings, weightOf] using h
  | cons element elements ih =>
      obtain ⟨hafter, hrest⟩ := pairwise_cons.1 hascending
      have hall := ih hrest (add_posting_lists h id element)
      refine ⟨hall.indexed, hall.nonempty, fun term => (hall.postings_perm term).trans ?_⟩
      refine List.Perm.of_eq ?_
      unfold ownPostings
      rw [append_assoc, weight_of_cons]
      by_cases hterm : element.termId = term
      · rw [if_pos hterm, if_pos hterm, ← hterm, weight_of_before hafter]
        rfl
      · rw [if_neg hterm, if_neg hterm, nil_append]

theorem add_all_records (id : Int64) (elements : List SparseElement) (index : SparseIndex) :
    (elements.foldl (addPosting id) index).records = index.records ∧
      (elements.foldl (addPosting id) index).recordSlots = index.recordSlots := by
  induction elements generalizing index with
  | nil => exact ⟨rfl, rfl⟩
  | cons element elements ih =>
      have hone : (index.addPosting id element).records = index.records ∧
          (index.addPosting id element).recordSlots = index.recordSlots := by
        unfold addPosting
        split <;> exact ⟨rfl, rfl⟩
      obtain ⟨hrecords, hslots⟩ := ih (index.addPosting id element)
      exact ⟨hrecords.trans hone.1, hslots.trans hone.2⟩

/-! ### Removing postings -/

/-- Taking the posting of a record leaves the others. -/
theorem without_perm {posting : SparsePosting} {rest : List SparsePosting}
    (h : list.postings.Perm (posting :: rest)) (hrest : posting.id ∉ rest.map (·.id)) :
    (list.without posting.id).postings.Perm rest := by
  have hmem : posting ∈ list.postings := h.mem_iff.2 mem_cons_self
  unfold PostingList.without
  cases hfind : list.postings.findIdx? (·.id = posting.id) with
  | none =>
      have := findIdx?_eq_none_iff.1 hfind posting hmem
      simp at this
  | some index =>
      obtain ⟨hlt, hid, -⟩ := findIdx?_eq_some_iff_getElem.1 hfind
      have hget := getElem?_eq_getElem hlt
      -- The posting found is the record's own, since the rest has none of it.
      have hfound : list.postings[index] = posting := by
        have hid : list.postings[index].id = posting.id := by simpa using hid
        rcases mem_cons.1 (h.mem_iff.1 (getElem_mem hlt)) with heq | hin
        · exact heq
        · exact absurd (hid ▸ mem_map_of_mem hin) hrest
      rw [hfound] at hget
      exact ((swap_remove_perm hget).symm.trans h).cons_inv

theorem without_term (id : Int64) (list : PostingList) : (list.without id).termId = list.termId := by
  unfold PostingList.without
  split <;> rfl

variable {id : Int64}

/-- Removing one posting of a record. -/
theorem remove_posting_lists {rest : Int64 → List SparsePosting} (h : index.Lists wanted)
    (hrest : id ∉ (rest element.termId).map (·.id))
    (hwanted : wanted element.termId = ⟨id, element.weight⟩ :: rest element.termId)
    (hother : ∀ term, term ≠ element.termId → wanted term = rest term) :
    (index.removePosting id element).Lists rest := by
  have hown := h.postings_perm element.termId
  rw [hwanted] at hown
  unfold removePosting
  cases hslot : index.termSlots[element.termId]? with
  | none =>
      have hnone : index.postingsOf element.termId = [] := by
        unfold postingsOf
        rw [hslot]
        rfl
      rw [hnone] at hown
      exact absurd hown.nil_eq (cons_ne_nil _ _).symm
  | some slot =>
      obtain ⟨list, hlist, hterm⟩ := (h.indexed _ _).1 hslot
      have hpostings : index.postingsOf element.termId = list.postings := by
        rw [← hterm]
        exact postings_of_list h.indexed (mem_of_getElem? hlist)
      rw [hpostings] at hown
      have hleft := without_perm hown hrest
      simp only at hleft
      have hindexed := indexed_modify h.indexed (without_term id) slot
      have hget : (index.terms.modify slot (·.without id))[slot]? = some (list.without id) := by
        rw [getElem?_modify_eq, hlist]
        rfl
      have hfind := find_by_modify h.indexed hlist (without_term id)
      simp only [hget, any_some]
      by_cases hempty : (list.without id).postings.isEmpty = true
      · -- The list has become empty and is dropped.
        have hnil : rest element.termId = [] := by
          rw [isEmpty_iff.1 hempty] at hleft
          exact hleft.nil_eq.symm
        have hkey : (list.without id).termId = element.termId := (without_term id list).trans hterm
        have hremoved := indexed_swap_remove hindexed hget
        rw [hkey] at hremoved
        have hperm := swap_remove_perm hget
        rw [if_pos hempty]
        refine ⟨hremoved, fun other hin => ?_, fun term => ?_⟩
        · -- Every list that stays was there before.
          have hmem : other ∈ index.terms.modify slot (·.without id) :=
            hperm.mem_iff.2 (mem_cons_of_mem _ hin)
          have hne : other.termId ≠ element.termId := by
            intro heq
            have hnodup := (hperm.map (·.termId)).nodup_iff.1 (indexed_nodup hindexed)
            rw [map_cons, hkey] at hnodup
            exact (nodup_cons.1 hnodup).1 (heq ▸ mem_map_of_mem hin)
          have hfound := hfind other.termId
          rw [find_by_of_mem (indexed_nodup hindexed) hmem, if_neg fun heq =>
            hne (heq.trans hterm)] at hfound
          exact h.nonempty other (mem_of_find_by hfound.symm)
        · rw [postings_of_eq hremoved]
          by_cases hsame : term = element.termId
          · have hnone : findBy (·.termId) term
                (swapRemove (index.terms.modify slot (·.without id)) slot) = none := by
              refine find_by_none.2 ?_
              have hnodup := (hperm.map (·.termId)).nodup_iff.1 (indexed_nodup hindexed)
              rw [map_cons, hkey] at hnodup
              rw [hsame]
              exact (nodup_cons.1 hnodup).1
            rw [hnone, hsame, hnil]
            rfl
          · have hstays : findBy (·.termId) term
                (swapRemove (index.terms.modify slot (·.without id)) slot) =
                findBy (·.termId) term index.terms := by
              have hlists := hfind term
              rw [if_neg fun heq => hsame (heq.trans hterm)] at hlists
              rw [← hlists]
              exact find_by_swap_remove hindexed hget fun heq => hsame (heq.symm.trans hkey)
            rw [hstays, ← postings_of_eq h.indexed, ← hother term hsame]
            exact h.postings_perm term
      · rw [if_neg hempty]
        refine ⟨hindexed, fun other hin => ?_, fun term => ?_⟩
        · obtain ⟨o, ho⟩ := mem_iff_getElem?.1 hin
          rw [getElem?_modify] at ho
          obtain ⟨old, hold, rfl⟩ := map_eq_some_iff.1 ho
          split
          · rename_i heq
            obtain rfl : old = list := by
              rw [← heq, hlist] at hold
              exact (Option.some.inj hold).symm
            exact fun hnil => hempty (by rw [hnil]; rfl)
          · exact h.nonempty old (mem_of_getElem? hold)
        · rw [postings_of_eq hindexed, hfind]
          by_cases hsame : term = element.termId
          · rw [if_pos (hsame.trans hterm.symm), hsame]
            exact hleft
          · rw [if_neg fun heq => hsame (heq.trans hterm), ← postings_of_eq h.indexed,
              ← hother term hsame]
            exact h.postings_perm term

theorem remove_all_lists (hascending : Ascending elements) {rest : Int64 → List SparsePosting}
    (hrest : ∀ term, id ∉ (rest term).map (·.id))
    (h : index.Lists fun term => ownPostings id elements term ++ rest term) :
    (elements.foldl (removePosting id) index).Lists rest := by
  induction elements generalizing index with
  | nil => simpa [ownPostings, weightOf] using h
  | cons element elements ih =>
      obtain ⟨hafter, hlater⟩ := pairwise_cons.1 hascending
      refine ih hlater (remove_posting_lists h ?_ ?_ fun term hterm => ?_)
      · unfold ownPostings
        rw [weight_of_before hafter]
        exact hrest element.termId
      · unfold ownPostings
        rw [weight_of_cons_self, weight_of_before hafter]
        rfl
      · unfold ownPostings
        rw [weight_of_cons, if_neg (Ne.symm hterm)]

theorem remove_all_records (id : Int64) (elements : List SparseElement) (index : SparseIndex) :
    (elements.foldl (removePosting id) index).records = index.records ∧
      (elements.foldl (removePosting id) index).recordSlots = index.recordSlots := by
  induction elements generalizing index with
  | nil => exact ⟨rfl, rfl⟩
  | cons element elements ih =>
      have hone : (index.removePosting id element).records = index.records ∧
          (index.removePosting id element).recordSlots = index.recordSlots := by
        unfold removePosting
        split
        · exact ⟨rfl, rfl⟩
        · simp only
          split <;> exact ⟨rfl, rfl⟩
      obtain ⟨hrecords, hslots⟩ := ih (index.removePosting id element)
      exact ⟨hrecords.trans hone.1, hslots.trans hone.2⟩

/-! ### The operations -/

/-- The vector of an identifier. -/
def vectorOf (index : SparseIndex) (id : Int64) : Option (List SparseElement) :=
  (findBy (·.id) id index.records).map (·.elements)

variable {records : List SparseRecord}

theorem record_postings_ids (h : id ∉ records.map (·.id)) (term : Int64) :
    id ∉ (recordPostings records term).map (·.id) := by
  intro hmem
  obtain ⟨posting, hposting, hid⟩ := mem_map.1 hmem
  obtain ⟨record, hrecord, hmap⟩ := mem_filterMap.1 hposting
  obtain ⟨weight, -, rfl⟩ := map_eq_some_iff.1 hmap
  exact h (mem_map.2 ⟨record, hrecord, hid⟩)

theorem record_postings_cons (record : SparseRecord) (records : List SparseRecord) (term : Int64) :
    recordPostings (record :: records) term =
      ownPostings record.id record.elements term ++ recordPostings records term := by
  unfold recordPostings ownPostings
  rw [filterMap_cons]
  cases weightOf record.elements term <;> rfl

/-- A delete removes the record of its point and all its postings. -/
theorem delete_valid (h : index.Valid) (id : Int64) :
    (index.delete id).Valid ∧ id ∉ (index.delete id).records.map (·.id) ∧
      (∀ other, (index.delete id).vectorOf other =
        if other = id then none else index.vectorOf other) ∧
      (id ∉ index.records.map (·.id) → index.delete id = index) := by
  cases hslot : index.recordSlots[id]? with
  | none =>
      have hsame : index.delete id = index := by
        unfold delete
        rw [hslot]
      have hnew := (indexed_none_iff h.indexed).1 hslot
      rw [hsame]
      refine ⟨h, hnew, fun other => ?_, fun _ => rfl⟩
      by_cases hother : other = id
      · unfold vectorOf
        rw [if_pos hother, hother, find_by_none.2 hnew]
        rfl
      · rw [if_neg hother]
  | some slot =>
      unfold delete
      rw [hslot]
      obtain ⟨record, hrecord, hid⟩ := (h.indexed _ _).1 hslot
      have hperm := swap_remove_perm hrecord
      replace hid : record.id = id := hid
      have hindexed := indexed_swap_remove h.indexed hrecord
      rw [hid] at hindexed
      have hnew : id ∉ (swapRemove index.records slot).map (·.id) := by
        have hnodup := (hperm.map (·.id)).nodup_iff.1 (indexed_nodup h.indexed)
        rw [map_cons, hid] at hnodup
        exact (nodup_cons.1 hnodup).1
      have hascending := h.ascending record (mem_of_getElem? hrecord)
      simp only [hrecord, map_some, getD_some]
      obtain ⟨hrecords, hslots⟩ := remove_all_records id record.elements { index with
        records := swapRemove index.records slot
        recordSlots := reslot (·.id) (swapRemove index.records slot) slot
          (index.recordSlots.erase id) }
      have hlists : (record.elements.foldl (removePosting id) { index with
          records := swapRemove index.records slot
          recordSlots := reslot (·.id) (swapRemove index.records slot) slot
            (index.recordSlots.erase id) }).Lists
          (recordPostings (swapRemove index.records slot)) := by
        refine remove_all_lists hascending (record_postings_ids hnew)
          ⟨h.lists.indexed, h.lists.nonempty, fun term => (h.lists.postings_perm term).trans ?_⟩
        rw [← hid, ← record_postings_cons]
        exact hperm.filterMap _
      refine ⟨⟨?_, fun other hother => ?_, ?_⟩, ?_, fun other => ?_, fun hmem => ?_⟩
      · rw [hrecords, hslots]
        exact hindexed
      · rw [hrecords] at hother
        exact h.ascending other (hperm.mem_iff.2 (mem_cons_of_mem _ hother))
      · rw [hrecords]
        exact hlists
      · rw [hrecords]
        exact hnew
      · unfold vectorOf
        rw [hrecords]
        by_cases hother : other = id
        · rw [if_pos hother, hother, find_by_none.2 hnew]
          rfl
        · rw [if_neg hother, find_by_swap_remove h.indexed hrecord fun heq =>
            hother (heq.symm.trans hid)]
      · exact absurd (hid ▸ mem_map_of_mem (mem_of_getElem? hrecord)) hmem

/-- An upsert of a valid vector stores it under its point and nothing else changes. -/
theorem upsert_valid (h : index.Valid) (id : Int64) (hvalid : validateSparse elements = .ok ()) :
    ∃ next, index.upsert id elements = .ok next ∧ next.Valid ∧
      next.records = (index.delete id).records ++ [⟨id, elements⟩] ∧
      ∀ other, next.vectorOf other =
        if other = id then some elements else index.vectorOf other := by
  obtain ⟨hdeleted, hnew, hvectors, -⟩ := delete_valid h id
  have hascending := validate_sparse_ascending hvalid
  refine ⟨_, bind_ok.2 ⟨(), hvalid, rfl⟩, ?_⟩
  generalize index.delete id = deleted at hdeleted hnew hvectors
  obtain ⟨hrecords, hslots⟩ := add_all_records id elements { deleted with
    records := deleted.records ++ [⟨id, elements⟩]
    recordSlots := deleted.recordSlots.insert id deleted.records.length }
  have hlists := @add_all_lists { deleted with
    records := deleted.records ++ [⟨id, elements⟩]
    recordSlots := deleted.recordSlots.insert id deleted.records.length } _ id _ hascending
    ⟨hdeleted.lists.indexed, hdeleted.lists.nonempty, hdeleted.lists.postings_perm⟩
  refine ⟨⟨?_, fun record hrecord => ?_, ?_⟩, hrecords, fun other => ?_⟩
  · rw [hrecords, hslots]
    exact indexed_push hdeleted.indexed (x := (⟨id, elements⟩ : SparseRecord)) hnew
  · rw [hrecords] at hrecord
    rcases mem_append.1 hrecord with hrecord | hrecord
    · exact hdeleted.ascending record hrecord
    · rw [mem_singleton.1 hrecord]
      exact hascending
  · rw [hrecords]
    refine ⟨hlists.indexed, hlists.nonempty, fun term => (hlists.postings_perm term).trans ?_⟩
    unfold recordPostings ownPostings
    rw [filterMap_append]
    refine List.Perm.of_eq (congrArg _ ?_)
    cases hweight : weightOf elements term <;> simp [hweight]
  · unfold vectorOf findBy
    rw [hrecords, find?_append]
    have hbefore := hvectors other
    unfold vectorOf findBy at hbefore
    by_cases hother : other = id
    · rw [if_pos hother] at hbefore ⊢
      rw [map_eq_none_iff.1 hbefore]
      simp [hother]
    · rw [if_neg hother] at hbefore ⊢
      have hlast : find? (fun record : SparseRecord => decide (record.id = other))
          [⟨id, elements⟩] = none := by simp [Ne.symm hother]
      rw [hlast, or_none, hbefore]

/-- A valid index of the records, in the order of their arrival. -/
structure Holds (index : SparseIndex) (records : List SparseRecord) : Prop where
  valid : index.Valid
  records_eq : index.records = records

theorem empty_holds : empty.Holds [] :=
  ⟨empty_valid, rfl⟩

theorem upsert_holds (h : index.Holds records) (hnew : id ∉ records.map (·.id))
    (hvalid : validateSparse elements = .ok ()) :
    ∃ next, index.upsert id elements = .ok next ∧ next.Holds (records ++ [⟨id, elements⟩]) := by
  obtain ⟨next, hnext, hvalid, hrecords, -⟩ := upsert_valid h.valid id hvalid
  obtain ⟨-, -, -, hsame⟩ := delete_valid h.valid id
  rw [hsame (by rw [h.records_eq]; exact hnew), h.records_eq] at hrecords
  exact ⟨next, hnext, hvalid, hrecords⟩

/-! ### Scores -/

/-- The score of a point in a list of scores. -/
def lookup (scores : List (TopKEntry S)) (id : Int64) : Option S :=
  (scores.find? (·.id = id)).map (·.score)

theorem lookup_add_contribution (ops : SparseOps S) (scores : List (TopKEntry S))
    (id other : Int64) (contribution : S) :
    lookup (addContribution ops scores id contribution) other =
      if other = id then addTo ops (lookup scores id) contribution else lookup scores other := by
  unfold lookup
  induction scores with
  | nil =>
      by_cases h : other = id
      · simp [addContribution, addTo, h]
      · simp [addContribution, h, Ne.symm h]
  | cons entry scores ih =>
      unfold addContribution
      by_cases hentry : entry.id = id
      · rw [if_pos hentry]
        by_cases h : other = id
        · simp [hentry, h, addTo]
        · have hne : entry.id ≠ other := fun heq => h (heq.symm.trans hentry)
          simp [h, Ne.symm h, hne]
      · rw [if_neg hentry]
        by_cases h : other = id
        · subst h
          simpa [hentry] using ih
        · by_cases hother : entry.id = other
          · simp [h, hother]
          · simpa [h, hother] using ih

theorem ids_add_contribution (ops : SparseOps S) (scores : List (TopKEntry S)) (id : Int64)
    (contribution : S) :
    (addContribution ops scores id contribution).map (·.id) =
      if id ∈ scores.map (·.id) then scores.map (·.id) else scores.map (·.id) ++ [id] := by
  induction scores with
  | nil => rfl
  | cons entry scores ih =>
      unfold addContribution
      by_cases h : entry.id = id
      · simp [h]
      · rw [if_neg h, map_cons, ih, map_cons]
        by_cases hmem : id ∈ scores.map (·.id)
        · rw [if_pos hmem, if_pos (mem_cons_of_mem _ hmem)]
        · have hmem' : id ∉ entry.id :: scores.map (·.id) := by
            rw [mem_cons, not_or]
            exact ⟨Ne.symm h, hmem⟩
          rw [if_neg hmem, if_neg hmem', cons_append]

theorem nodup_add_contribution (ops : SparseOps S) {scores : List (TopKEntry S)}
    (h : (scores.map (·.id)).Nodup) (id : Int64) (contribution : S) :
    ((addContribution ops scores id contribution).map (·.id)).Nodup := by
  rw [ids_add_contribution]
  split
  · exact h
  · rename_i hmem
    exact nodup_append.2 ⟨h, nodup_singleton _, fun a ha b hb => by
      rw [mem_singleton.1 hb]
      exact fun heq => hmem (heq ▸ ha)⟩

/-- In a list of points without repetition the score of a point is the one of its entry. -/
theorem mem_iff_lookup {scores : List (TopKEntry S)} (h : (scores.map (·.id)).Nodup)
    {entry : TopKEntry S} : entry ∈ scores ↔ lookup scores entry.id = some entry.score := by
  unfold lookup
  induction scores with
  | nil => simp
  | cons first scores ih =>
      obtain ⟨hnew, hrest⟩ := nodup_cons.1 h
      rw [mem_cons, find?_cons, ih hrest]
      by_cases hid : first.id = entry.id
      · have hnone : scores.find? (·.id = entry.id) = none := by
          refine find?_eq_none.2 fun other hother heq => hnew ?_
          exact mem_map.2 ⟨other, hother, (by simpa using heq : other.id = _).trans hid.symm⟩
        rw [hnone, decide_eq_true hid]
        obtain ⟨id, score⟩ := first
        obtain ⟨id', score'⟩ := entry
        obtain rfl : id = id' := hid
        simp [eq_comm]
      · have hne : entry ≠ first := fun heq => hid (by rw [heq])
        rw [decide_eq_false hid]
        simp [hne]

/-- The postings of one term add to the scores of their points. -/
theorem lookup_fold_postings (ops : SparseOps S) (weight : F32) {postings : List SparsePosting}
    (hnodup : (postings.map (·.id)).Nodup) (scores : List (TopKEntry S)) (id : Int64) :
    lookup (postings.foldl (fun scores posting =>
        addContribution ops scores posting.id (ops.product weight posting.weight)) scores) id =
      match postings.find? (·.id = id) with
      | some posting => addTo ops (lookup scores id) (ops.product weight posting.weight)
      | none => lookup scores id := by
  induction postings generalizing scores with
  | nil => rfl
  | cons posting postings ih =>
      obtain ⟨hnew, hrest⟩ := nodup_cons.1 hnodup
      rw [foldl_cons, ih hrest, lookup_add_contribution, find?_cons]
      by_cases h : posting.id = id
      · have hnone : postings.find? (·.id = id) = none := by
          refine find?_eq_none.2 fun other hother heq => hnew ?_
          have hid : other.id = posting.id := (by simpa using heq : other.id = id).trans h.symm
          exact mem_map.2 ⟨other, hother, hid⟩
        simp [hnone, h]
      · simp [h, Ne.symm h]

theorem nodup_fold_postings (ops : SparseOps S) (weight : F32) (postings : List SparsePosting)
    {scores : List (TopKEntry S)} (h : (scores.map (·.id)).Nodup) :
    ((postings.foldl (fun scores posting =>
      addContribution ops scores posting.id (ops.product weight posting.weight)) scores).map
        (·.id)).Nodup := by
  induction postings generalizing scores with
  | nil => exact h
  | cons posting postings ih => exact ih (nodup_add_contribution ops h _ _)

theorem record_postings_nodup (h : (records.map (·.id)).Nodup) (term : Int64) :
    ((recordPostings records term).map (·.id)).Nodup := by
  have hsub : ((recordPostings records term).map (·.id)).Sublist (records.map (·.id)) := by
    unfold recordPostings
    induction records with
    | nil => exact List.Sublist.refl _
    | cons record records ih =>
        have hrest := ih (nodup_cons.1 h).2
        rw [filterMap_cons]
        cases weightOf record.elements term with
        | none => exact List.Sublist.cons _ hrest
        | some weight => exact List.Sublist.cons_cons _ hrest
  exact h.sublist hsub

/-- The posting of a record in a term's list. -/
theorem find_record_posting (hnodup : (records.map (·.id)).Nodup) {record : SparseRecord}
    (hrecord : record ∈ records) (term : Int64) :
    (recordPostings records term).find? (·.id = record.id) =
      (weightOf record.elements term).map fun weight => ⟨record.id, weight⟩ := by
  unfold recordPostings
  induction records with
  | nil => cases hrecord
  | cons first records ih =>
      obtain ⟨hnew, hrest⟩ := nodup_cons.1 hnodup
      rw [filterMap_cons]
      rcases mem_cons.1 hrecord with rfl | hrecord
      · cases hweight : weightOf record.elements term with
        | some weight => simp
        | none =>
            refine find?_eq_none.2 fun posting hposting heq => hnew ?_
            obtain ⟨other, hother, hmap⟩ := mem_filterMap.1 hposting
            obtain ⟨weight, -, rfl⟩ := map_eq_some_iff.1 hmap
            exact mem_map.2 ⟨other, hother, by simpa using heq⟩
      · have hne : first.id ≠ record.id := by
          intro heq
          exact hnew (mem_map.2 ⟨record, hrecord, heq.symm⟩)
        have := ih hrest hrecord
        cases weightOf first.elements term with
        | none => exact this
        | some weight => simpa [hne] using this

section Scores

variable {index : SparseIndex} (h : index.Valid) (ops : SparseOps S)

include h

theorem postings_find (term id : Int64) :
    (index.postingsOf term).find? (·.id = id) =
      (recordPostings index.records term).find? (·.id = id) :=
  find_by_perm (h.lists.postings_perm term) (record_postings_nodup (indexed_nodup h.indexed) term) id

theorem postings_nodup (term : Int64) : ((index.postingsOf term).map (·.id)).Nodup :=
  ((h.lists.postings_perm term).map _).nodup_iff.2
    (record_postings_nodup (indexed_nodup h.indexed) term)

/-- The score of a record is the sum of its contributions, in the order of the query. -/
theorem lookup_add_terms {record : SparseRecord} (hrecord : record ∈ index.records)
    (query : List SparseElement) (scores : List (TopKEntry S)) :
    lookup (query.foldl (addTerm ops index) scores) record.id =
      (contributions ops query record.elements).foldl (addTo ops) (lookup scores record.id) := by
  induction query generalizing scores with
  | nil => rfl
  | cons item query ih =>
      have hterm : lookup (addTerm ops index scores item) record.id =
          (match weightOf record.elements item.termId with
          | some weight => addTo ops (lookup scores record.id) (ops.product item.weight weight)
          | none => lookup scores record.id) := by
        unfold addTerm
        rw [lookup_fold_postings ops item.weight (postings_nodup h item.termId),
          postings_find h, find_record_posting (indexed_nodup h.indexed) hrecord]
        cases weightOf record.elements item.termId <;> rfl
      rw [foldl_cons, ih, hterm]
      unfold contributions
      rw [filterMap_cons]
      cases weightOf record.elements item.termId <;> rfl

theorem lookup_add_terms_other (hid : id ∉ index.records.map (·.id)) (query : List SparseElement)
    (scores : List (TopKEntry S)) :
    lookup (query.foldl (addTerm ops index) scores) id = lookup scores id := by
  induction query generalizing scores with
  | nil => rfl
  | cons item query ih =>
      have hnone : (recordPostings index.records item.termId).find? (·.id = id) = none := by
        refine find?_eq_none.2 fun posting hposting heq => ?_
        have hmem := mem_map_of_mem (f := (·.id)) hposting
        rw [show posting.id = id by simpa using heq] at hmem
        exact record_postings_ids hid item.termId hmem
      rw [foldl_cons, ih]
      unfold addTerm
      rw [lookup_fold_postings ops item.weight (postings_nodup h item.termId), postings_find h,
        hnone]

/-- `scores` gives each record that shares a term with the query its score, once. -/
theorem scores_ok {query : List SparseElement} (hquery : validateSparse query = .ok ()) :
    ∃ entries, index.scores ops query = .ok entries ∧ (entries.map (·.id)).Nodup ∧
      ∀ entry, entry ∈ entries ↔ ∃ record ∈ index.records, record.id = entry.id ∧
        sharedScore ops query record.elements = some entry.score := by
  have hnodups : ∀ (query : List SparseElement) (scores : List (TopKEntry S)),
      (scores.map (·.id)).Nodup →
        ((query.foldl (addTerm ops index) scores).map (·.id)).Nodup := by
    intro query
    induction query with
    | nil => exact fun _ h => h
    | cons item query ih => exact fun scores h => ih _ (nodup_fold_postings ops _ _ h)
  refine ⟨_, bind_ok.2 ⟨(), hquery, rfl⟩, hnodups query [] nodup_nil, fun entry => ?_⟩
  rw [mem_iff_lookup (hnodups query [] nodup_nil)]
  by_cases hid : entry.id ∈ index.records.map (·.id)
  · obtain ⟨record, hrecord, hid⟩ := mem_map.1 hid
    rw [← hid, lookup_add_terms h ops hrecord]
    constructor
    · exact fun hscore => ⟨record, hrecord, rfl, hscore⟩
    · rintro ⟨other, hother, heq, hscore⟩
      obtain rfl : other = record :=
        inj_on_of_nodup_map (indexed_nodup h.indexed) hother hrecord heq
      exact hscore
  · rw [lookup_add_terms_other h ops hid]
    refine ⟨nofun, ?_⟩
    rintro ⟨record, hrecord, heq, -⟩
    exact absurd (mem_map.2 ⟨record, hrecord, heq⟩) hid

end Scores

end SparseIndex

end Akasha.Index

import Mathlib.Data.List.Nodup
import Mathlib.Data.List.Perm.Basic
import Mathlib.Order.Lattice

/-!
# Binary search in an ordered list

`partitionPoint before entries low high` is the loop every ordered index shares: it halves the
range until it finds where `before` stops to hold. `insertOrdered` and `removeOrdered` are the
updates at that point. The order is given by a key; two entries with equal keys are the same
posting.
-/

namespace Akasha.Lib

open List

variable {α κ φ ν : Type}

/-! ## The halving loop -/

/-- `while low < high`, with the width of the range as the number of rounds that suffice. -/
def bisect (before : α → Bool) (entries : List α) : Nat → Nat → Nat → Nat
  | 0, low, _ => low
  | rounds + 1, low, high =>
      if low < high then
        let middle := (low + high) / 2
        if (entries[middle]?).any before then bisect before entries rounds (middle + 1) high
        else bisect before entries rounds low middle
      else low

/-- The first position of `low..high` whose entry is not `before`. -/
def partitionPoint (before : α → Bool) (entries : List α) (low high : Nat) : Nat :=
  bisect before entries (high - low) low high

/-- On `low..high` the entries left of `point` are `before` and the others are not. -/
structure Splits (before : α → Bool) (entries : List α) (low high point : Nat) : Prop where
  low_le : low ≤ point
  le_high : point ≤ high
  iff_lt : ∀ i e, low ≤ i → i < high → entries[i]? = some e → (before e = true ↔ i < point)

/-- Entries that are `before` come first. -/
def Partitioned (before : α → Bool) (entries : List α) (low high : Nat) : Prop :=
  ∀ i j a b, low ≤ i → i ≤ j → j < high → entries[i]? = some a → entries[j]? = some b →
    before b = true → before a = true

private theorem bisect_splits {before : α → Bool} {entries : List α} {rounds low high : Nat}
    (hlow : low ≤ high) (hhigh : high ≤ entries.length) (hrounds : high - low ≤ rounds)
    (hp : Partitioned before entries low high) :
    Splits before entries low high (bisect before entries rounds low high) := by
  induction rounds generalizing low high with
  | zero =>
      refine ⟨Nat.le_refl _, hlow, fun i e hi hlt _ => ?_⟩
      omega
  | succ rounds ih =>
      unfold bisect
      by_cases hlt : low < high
      case neg =>
        rw [if_neg hlt]
        exact ⟨Nat.le_refl _, hlow, fun i e hi hlt' _ => by omega⟩
      rw [if_pos hlt]
      have hmid : (low + high) / 2 < high := by omega
      have hlowmid : low ≤ (low + high) / 2 := by omega
      obtain ⟨m, hm⟩ : ∃ m, entries[(low + high) / 2]? = some m :=
        ⟨_, List.getElem?_eq_getElem (by omega)⟩
      simp only [hm, Option.any_some]
      -- The half that is dropped is decided by the entry in the middle.
      by_cases hb : before m = true
      · rw [if_pos hb]
        have hsub := @ih ((low + high) / 2 + 1) high (by omega) hhigh (by omega)
          (fun i j a b hi => hp i j a b (by omega))
        refine ⟨by have := hsub.low_le; omega, hsub.le_high, fun i e hi hlt' he => ?_⟩
        by_cases hside : i ≤ (low + high) / 2
        · have hbe := hp i _ e m hi hside hmid he hm hb
          have := hsub.low_le
          exact ⟨fun _ => by omega, fun _ => hbe⟩
        · exact hsub.iff_lt i e (by omega) hlt' he
      · rw [if_neg hb]
        have hsub := @ih low ((low + high) / 2) hlowmid (by omega) (by omega)
          (fun i j a b hi hij hj => hp i j a b hi hij (by omega))
        refine ⟨hsub.low_le, by have := hsub.le_high; omega, fun i e hi hlt' he => ?_⟩
        by_cases hside : i < (low + high) / 2
        · exact hsub.iff_lt i e hi hside he
        · have hbe : ¬ before e = true := fun hbe => hb (hp _ i m e hlowmid (by omega) hlt' hm he hbe)
          have := hsub.le_high
          exact ⟨fun h => (hbe h).elim, fun _ => by omega⟩

theorem partition_point_splits {before : α → Bool} {entries : List α} {low high : Nat}
    (hlow : low ≤ high) (hhigh : high ≤ entries.length)
    (hp : Partitioned before entries low high) :
    Splits before entries low high (partitionPoint before entries low high) :=
  bisect_splits hlow hhigh (Nat.le_refl _) hp

/-! ## Ranges of positions -/

/-- The entries at the positions `first..last`. -/
def slice (entries : List α) (first last : Nat) : List α :=
  (entries.take last).drop first

theorem mem_slice {entries : List α} {first last : Nat} {e : α} :
    e ∈ slice entries first last ↔ ∃ i, first ≤ i ∧ i < last ∧ entries[i]? = some e := by
  unfold slice
  constructor
  · intro h
    obtain ⟨i, hi⟩ := mem_iff_getElem?.1 h
    rw [List.getElem?_drop, List.getElem?_take] at hi
    split at hi
    · exact ⟨first + i, by omega, by omega, hi⟩
    · exact absurd hi (by simp)
  · rintro ⟨i, hfirst, hlast, hi⟩
    refine mem_iff_getElem?.2 ⟨i - first, ?_⟩
    rw [List.getElem?_drop, List.getElem?_take, if_pos (by omega)]
    rwa [Nat.add_sub_cancel' hfirst]

/-! ## One value in one family

Entries are ordered by a family and, inside a family, by a value. Four searches find where a
family starts and ends and, in between, where a value does. -/

section Family

variable [LinearOrder φ] [LinearOrder ν] (family : α → φ) (value : α → ν)

/-- Ascending families, and ascending values in each. -/
def FamilySorted (entries : List α) : Prop :=
  entries.Pairwise fun a b => family a < family b ∨ family a = family b ∧ value a ≤ value b

/-- `start..stop` are the entries of the family `f`; of these, those below `lower` are smaller
than `v` and those below `upper` are not greater. -/
structure Located (entries : List α) (f : φ) (v : ν) (start stop lower upper : Nat) : Prop where
  start_le : start ≤ lower
  lower_le : lower ≤ upper
  upper_le : upper ≤ stop
  family_iff : ∀ i e, entries[i]? = some e → (start ≤ i ∧ i < stop ↔ family e = f)
  lower_iff : ∀ i e, entries[i]? = some e → family e = f → (i < lower ↔ value e < v)
  upper_iff : ∀ i e, entries[i]? = some e → family e = f → (i < upper ↔ value e ≤ v)

variable {family value}

theorem FamilySorted.getElem? {entries : List α} (hs : FamilySorted family value entries)
    {i j : Nat} {a b : α} (hij : i ≤ j) (ha : entries[i]? = some a) (hb : entries[j]? = some b) :
    family a < family b ∨ family a = family b ∧ value a ≤ value b := by
  rcases Nat.lt_or_eq_of_le hij with hlt | rfl
  · obtain ⟨hi, rfl⟩ := List.getElem?_eq_some_iff.1 ha
    obtain ⟨hj, rfl⟩ := List.getElem?_eq_some_iff.1 hb
    exact pairwise_iff_getElem.1 hs i j hi hj hlt
  · rw [ha] at hb
    obtain rfl := Option.some.inj hb
    exact .inr ⟨rfl, le_refl _⟩

/-- The four searches locate a value in a family. -/
theorem located_of_sorted {entries : List α} {f : φ} {v : ν}
    {familyBefore familyUpTo valueBefore valueUpTo : α → Bool} {start stop lower upper : Nat}
    (hs : FamilySorted family value entries)
    (hfb : ∀ e ∈ entries, familyBefore e = true ↔ family e < f)
    (hfu : ∀ e ∈ entries, familyUpTo e = true ↔ family e ≤ f)
    (hvb : ∀ e ∈ entries, family e = f → (valueBefore e = true ↔ value e < v))
    (hvu : ∀ e ∈ entries, family e = f → (valueUpTo e = true ↔ value e ≤ v))
    (hstart : start = partitionPoint familyBefore entries 0 entries.length)
    (hstop : stop = partitionPoint familyUpTo entries start entries.length)
    (hlower : lower = partitionPoint valueBefore entries start stop)
    (hupper : upper = partitionPoint valueUpTo entries lower stop) :
    Located family value entries f v start stop lower upper := by
  have hle : ∀ {i j : Nat} {a b : α}, i ≤ j → entries[i]? = some a → entries[j]? = some b →
      family a ≤ family b := by
    intro i j a b hij ha hb
    rcases hs.getElem? hij ha hb with h | ⟨h, -⟩
    · exact h.le
    · exact h.le
  have hmem : ∀ {i : Nat} {e : α}, entries[i]? = some e → e ∈ entries := fun h => mem_of_getElem? h
  have s₁ := partition_point_splits (Nat.zero_le _) (Nat.le_refl _)
    (show Partitioned familyBefore entries 0 entries.length from
      fun i j a b _ hij _ ha hb h =>
        (hfb a (hmem ha)).2 (lt_of_le_of_lt (hle hij ha hb) ((hfb b (hmem hb)).1 h)))
  rw [← hstart] at s₁
  have s₂ := partition_point_splits s₁.le_high (Nat.le_refl _)
    (show Partitioned familyUpTo entries start entries.length from
      fun i j a b _ hij _ ha hb h =>
        (hfu a (hmem ha)).2 ((hle hij ha hb).trans ((hfu b (hmem hb)).1 h)))
  rw [← hstop] at s₂
  have hfamily : ∀ i e, entries[i]? = some e → (start ≤ i ∧ i < stop ↔ family e = f) := by
    intro i e he
    have hlen : i < entries.length := (List.getElem?_eq_some_iff.1 he).1
    have h₁ := (s₁.iff_lt i e (Nat.zero_le _) hlen he).symm.trans (hfb e (hmem he))
    constructor
    · rintro ⟨hi, hlt⟩
      have h₂ := (s₂.iff_lt i e hi hlen he).symm.trans (hfu e (hmem he))
      exact le_antisymm (h₂.1 hlt) (not_lt.1 fun h => absurd (h₁.2 h) (by omega))
    · intro hf
      have hi : start ≤ i := Nat.le_of_not_lt fun h => absurd (h₁.1 h) (by rw [hf]; exact lt_irrefl f)
      exact ⟨hi, ((s₂.iff_lt i e hi hlen he).symm.trans (hfu e (hmem he))).2 hf.le⟩
  have hin : ∀ {i : Nat} {e : α}, start ≤ i → i < stop → entries[i]? = some e → family e = f :=
    fun hi hlt he => (hfamily _ _ he).1 ⟨hi, hlt⟩
  have hvalue : ∀ {i j : Nat} {a b : α}, start ≤ i → i ≤ j → j < stop → entries[i]? = some a →
      entries[j]? = some b → value a ≤ value b := by
    intro i j a b hi hij hj ha hb
    rcases hs.getElem? hij ha hb with h | ⟨-, h⟩
    · rw [hin hi (by omega) ha, hin (by omega) hj hb] at h
      exact absurd h (lt_irrefl f)
    · exact h
  have s₃ := partition_point_splits s₂.low_le s₂.le_high
    (show Partitioned valueBefore entries start stop from fun i j a b hi hij hj ha hb h =>
      (hvb a (hmem ha) (hin hi (by omega) ha)).2 (lt_of_le_of_lt (hvalue hi hij hj ha hb)
        ((hvb b (hmem hb) (hin (by omega) hj hb)).1 h)))
  rw [← hlower] at s₃
  have s₄ := partition_point_splits s₃.le_high s₂.le_high
    (show Partitioned valueUpTo entries lower stop from fun i j a b hi hij hj ha hb h => by
      have := s₃.low_le
      exact (hvu a (hmem ha) (hin (by omega) (by omega) ha)).2 ((hvalue (by omega) hij hj ha hb).trans
        ((hvu b (hmem hb) (hin (by omega) hj hb)).1 h)))
  rw [← hupper] at s₄
  have hlowerIff : ∀ i e, entries[i]? = some e → family e = f → (i < lower ↔ value e < v) := by
    intro i e he hf
    obtain ⟨hi, hlt⟩ := (hfamily i e he).2 hf
    exact (s₃.iff_lt i e hi hlt he).symm.trans (hvb e (hmem he) hf)
  refine ⟨s₃.low_le, s₄.low_le, s₄.le_high, hfamily, hlowerIff, fun i e he hf => ?_⟩
  obtain ⟨hi, hlt⟩ := (hfamily i e he).2 hf
  by_cases hl : i < lower
  · have := s₄.low_le
    exact ⟨fun _ => ((hlowerIff i e he hf).1 hl).le, fun _ => by omega⟩
  · exact (s₄.iff_lt i e (by omega) hlt he).symm.trans (hvu e (hmem he) hf)

theorem mem_slice_of_iff {entries : List α} {first last : Nat} (p : α → Prop)
    (hp : ∀ i e, entries[i]? = some e → (first ≤ i ∧ i < last ↔ p e)) {e : α} :
    e ∈ slice entries first last ↔ e ∈ entries ∧ p e := by
  rw [mem_slice, mem_iff_getElem?]
  constructor
  · rintro ⟨i, h₁, h₂, hi⟩
    exact ⟨⟨i, hi⟩, (hp i e hi).1 ⟨h₁, h₂⟩⟩
  · rintro ⟨⟨i, hi⟩, he⟩
    obtain ⟨h₁, h₂⟩ := (hp i e hi).2 he
    exact ⟨i, h₁, h₂, hi⟩

namespace Located

variable {entries : List α} {f : φ} {v : ν} {start stop lower upper : Nat}

omit [LinearOrder φ]

variable {e : α}

theorem mem_family (h : Located family value entries f v start stop lower upper) :
    e ∈ slice entries start stop ↔ e ∈ entries ∧ family e = f :=
  mem_slice_of_iff _ h.family_iff

theorem mem_between (h : Located family value entries f v start stop lower upper)
    {first last : Nat} (p : α → Prop) (hfirst : start ≤ first) (hlast : last ≤ stop)
    (hp : ∀ i e, entries[i]? = some e → family e = f → (first ≤ i ∧ i < last ↔ p e)) :
    e ∈ slice entries first last ↔ e ∈ entries ∧ family e = f ∧ p e := by
  refine mem_slice_of_iff (fun e => family e = f ∧ p e) fun i e he => ?_
  have hfamily := h.family_iff i e he
  constructor
  · rintro ⟨h₁, h₂⟩
    have hf := hfamily.1 ⟨by omega, by omega⟩
    exact ⟨hf, (hp i e he hf).1 ⟨h₁, h₂⟩⟩
  · rintro ⟨hf, hpe⟩
    exact (hp i e he hf).2 hpe

theorem mem_lt (h : Located family value entries f v start stop lower upper) :
    e ∈ slice entries start lower ↔ e ∈ entries ∧ family e = f ∧ value e < v := by
  refine h.mem_between (value · < v) (Nat.le_refl _) (Nat.le_trans h.lower_le h.upper_le)
    fun i e he hf => ?_
  rw [← h.lower_iff i e he hf]
  exact and_iff_right ((h.family_iff i e he).2 hf).1

theorem mem_le (h : Located family value entries f v start stop lower upper) :
    e ∈ slice entries start upper ↔ e ∈ entries ∧ family e = f ∧ value e ≤ v := by
  refine h.mem_between (value · ≤ v) (Nat.le_refl _) h.upper_le fun i e he hf => ?_
  rw [← h.upper_iff i e he hf]
  exact and_iff_right ((h.family_iff i e he).2 hf).1

theorem mem_gt (h : Located family value entries f v start stop lower upper) :
    e ∈ slice entries upper stop ↔ e ∈ entries ∧ family e = f ∧ v < value e := by
  refine h.mem_between (v < value ·) (Nat.le_trans h.start_le h.lower_le) (Nat.le_refl _)
    fun i e he hf => ?_
  rw [← @not_le ν, ← h.upper_iff i e he hf, Nat.not_lt]
  exact and_iff_left ((h.family_iff i e he).2 hf).2

theorem mem_ge (h : Located family value entries f v start stop lower upper) :
    e ∈ slice entries lower stop ↔ e ∈ entries ∧ family e = f ∧ v ≤ value e := by
  refine h.mem_between (v ≤ value ·) h.start_le (Nat.le_refl _) fun i e he hf => ?_
  rw [← @not_lt ν, ← h.lower_iff i e he hf, Nat.not_lt]
  exact and_iff_left ((h.family_iff i e he).2 hf).2

theorem mem_eq (h : Located family value entries f v start stop lower upper) :
    e ∈ slice entries lower upper ↔ e ∈ entries ∧ family e = f ∧ value e = v := by
  refine h.mem_between (value · = v) h.start_le h.upper_le fun i e he hf => ?_
  rw [h.upper_iff i e he hf, ← Nat.not_lt, h.lower_iff i e he hf, not_lt]
  exact ⟨fun ⟨h₁, h₂⟩ => le_antisymm h₂ h₁, fun h => ⟨h.ge, h.le⟩⟩

end Located

end Family

/-! ## Updates at the partition point -/

section Ordered

variable [LinearOrder κ] (after : α → α → Bool)

/-- Neither entry is after the other. -/
def sameEntry (a b : α) : Bool :=
  !(after a b || after b a)

/-- The first position whose entry is not smaller than `key`. -/
def lowerBound (entries : List α) (key : α) : Nat :=
  partitionPoint (fun e => after key e) entries 0 entries.length

/-- Append during a bulk load; else insert in order unless the entry is there. -/
def insertPosting (entries : List α) (key : α) (bulk : Bool) : List α :=
  if bulk then entries ++ [key]
  else
    let position := lowerBound after entries key
    if (entries[position]?).any (sameEntry after · key) then entries
    else entries.take position ++ key :: entries.drop position

/-- Drop the entry. During a bulk load the list is not ordered and is searched from the front. -/
def removePosting (entries : List α) (key : α) (bulk : Bool) : List α :=
  if bulk then entries.eraseP (sameEntry after · key)
  else
    let position := lowerBound after entries key
    if (entries[position]?).any (sameEntry after · key) then entries.eraseIdx position
    else entries

variable {after} {rank : α → κ}

/-- Ascending keys. -/
def KeySorted (rank : α → κ) (entries : List α) : Prop :=
  entries.Pairwise fun a b => rank a < rank b

theorem same_entry_iff (hafter : ∀ a b, after a b = true ↔ rank b < rank a) {a b : α} :
    sameEntry after a b = true ↔ rank a = rank b := by
  unfold sameEntry
  rw [Bool.not_eq_true', Bool.or_eq_false_iff, Bool.eq_false_iff, Bool.eq_false_iff, ne_eq, ne_eq,
    hafter, hafter, not_lt, not_lt]
  exact ⟨fun ⟨h₁, h₂⟩ => le_antisymm h₁ h₂, fun h => ⟨h.le, h.ge⟩⟩

variable {entries : List α}

/-- The lower bound separates the smaller entries from the others. -/
theorem lower_bound_splits (hafter : ∀ a b, after a b = true ↔ rank b < rank a)
    (hs : KeySorted rank entries) (key : α) :
    (∀ e ∈ entries.take (lowerBound after entries key), rank e < rank key) ∧
      ∀ e ∈ entries.drop (lowerBound after entries key), rank key ≤ rank e := by
  have hle : ∀ {i j : Nat} {a b : α}, i ≤ j → entries[i]? = some a → entries[j]? = some b →
      rank a ≤ rank b := by
    intro i j a b hij ha hb
    rcases Nat.lt_or_eq_of_le hij with hlt | rfl
    · obtain ⟨hi, rfl⟩ := List.getElem?_eq_some_iff.1 ha
      obtain ⟨hj, rfl⟩ := List.getElem?_eq_some_iff.1 hb
      exact (pairwise_iff_getElem.1 hs i j hi hj hlt).le
    · rw [ha] at hb
      rw [Option.some.inj hb]
  have hsplit := partition_point_splits (Nat.zero_le _) (Nat.le_refl _)
    (show Partitioned (fun e => after key e) entries 0 entries.length from
      fun i j a b _ hij _ ha hb h =>
        (hafter _ _).2 (lt_of_le_of_lt (hle hij ha hb) ((hafter _ _).1 h)))
  constructor
  · intro e he
    obtain ⟨i, hi⟩ := mem_iff_getElem?.1 he
    rw [List.getElem?_take] at hi
    split at hi
    · exact (hafter _ _).1 ((hsplit.iff_lt i e (Nat.zero_le _)
        (List.getElem?_eq_some_iff.1 hi).1 hi).2 (by assumption))
    · exact absurd hi (by simp)
  · intro e he
    obtain ⟨i, hi⟩ := mem_iff_getElem?.1 he
    rw [List.getElem?_drop] at hi
    refine not_lt.1 fun h => ?_
    have := (hsplit.iff_lt _ e (Nat.zero_le _) (List.getElem?_eq_some_iff.1 hi).1 hi).1
      ((hafter _ _).2 h)
    unfold lowerBound at this
    omega

/-- Postings with different keys, in order unless a bulk load is under way. -/
structure OrderedPostings (rank : α → κ) (bulk : Bool) (entries : List α) : Prop where
  distinct : entries.Pairwise fun a b => rank a ≠ rank b
  sorted : bulk = false → KeySorted rank entries

omit [LinearOrder κ] in
theorem distinct_of_perm {entries entries' : List α}
    (h : entries.Pairwise fun a b => rank a ≠ rank b) (hperm : entries.Perm entries') :
    entries'.Pairwise fun a b => rank a ≠ rank b :=
  (hperm.pairwise_iff fun hab => Ne.symm hab).1 h

variable {bulk : Bool}

theorem OrderedPostings.eq_of_rank (h : OrderedPostings rank bulk entries) {a b : α}
    (ha : a ∈ entries) (hb : b ∈ entries) (hab : rank a = rank b) : a = b := by
  have hmap : (entries.map rank).Nodup := pairwise_map.2 h.distinct
  exact inj_on_of_nodup_map hmap ha hb hab

/-- A new posting is added. -/
theorem insert_posting_spec (hafter : ∀ a b, after a b = true ↔ rank b < rank a) {key : α}
    (h : OrderedPostings rank bulk entries) (hnew : ∀ e ∈ entries, rank e ≠ rank key) :
    OrderedPostings rank bulk (insertPosting after entries key bulk) ∧
      (insertPosting after entries key bulk).Perm (key :: entries) := by
  suffices hperm : (insertPosting after entries key bulk).Perm (key :: entries) ∧
      (bulk = false → KeySorted rank (insertPosting after entries key bulk)) by
    refine ⟨⟨distinct_of_perm ?_ hperm.1.symm, hperm.2⟩, hperm.1⟩
    exact pairwise_cons.2 ⟨fun e he => (hnew e he).symm, h.distinct⟩
  unfold insertPosting
  cases bulk with
  | true =>
      rw [if_pos rfl]
      exact ⟨perm_append_singleton _ _, fun h => absurd h (by decide)⟩
  | false =>
      rw [if_neg (by decide)]
      have hno : ¬ (entries[lowerBound after entries key]?).any (sameEntry after · key) = true := by
        intro h
        obtain ⟨e, he, hsame⟩ := (Option.any_eq_true _ _).1 h
        exact hnew e (mem_of_getElem? he) ((same_entry_iff hafter).1 hsame)
      simp only [if_neg hno]
      refine ⟨?_, fun _ => ?_⟩
      · refine perm_middle.trans (List.Perm.cons _ ?_)
        rw [take_append_drop]
      · have hsorted := h.sorted rfl
        obtain ⟨hbelow, habove⟩ := lower_bound_splits hafter hsorted key
        unfold KeySorted at hsorted ⊢
        rw [← take_append_drop (lowerBound after entries key) entries,
          pairwise_append] at hsorted
        obtain ⟨hl, hr, hcross⟩ := hsorted
        refine pairwise_append.2 ⟨hl, pairwise_cons.2 ⟨fun e he => ?_, hr⟩, ?_⟩
        · exact lt_of_le_of_ne (habove e he) (hnew e (mem_of_mem_drop he)).symm
        · intro a ha b hb
          rcases mem_cons.1 hb with rfl | hb
          · exact hbelow a ha
          · exact hcross a ha b hb

/-- A posting that is there stands at its lower bound. -/
theorem getElem?_lower_bound (hafter : ∀ a b, after a b = true ↔ rank b < rank a) {key : α}
    (hs : KeySorted rank entries) (hmem : key ∈ entries) :
    entries[lowerBound after entries key]? = some key := by
  obtain ⟨hbelow, habove⟩ := lower_bound_splits hafter hs key
  have hdrop : key ∈ entries.drop (lowerBound after entries key) := by
    have := hmem
    rw [← take_append_drop (lowerBound after entries key) entries, mem_append] at this
    exact this.resolve_left fun h => absurd (hbelow key h) (lt_irrefl _)
  obtain ⟨e, rest, hrest⟩ := exists_cons_of_ne_nil (ne_nil_of_mem hdrop)
  have hget : entries[lowerBound after entries key]? = some e := by
    have : (entries.drop (lowerBound after entries key))[0]? = some e := by rw [hrest]; rfl
    rwa [List.getElem?_drop, Nat.add_zero] at this
  -- Nothing before the key is left, so the key is the first that remains.
  have hpair : KeySorted rank (e :: rest) := by
    rw [← hrest]
    exact List.Pairwise.sublist (drop_sublist _ _) hs
  rw [hrest] at hdrop
  rcases mem_cons.1 hdrop with rfl | hlater
  · exact hget
  · have hlt := (pairwise_cons.1 hpair).1 key hlater
    have hle := habove e (by rw [hrest]; exact mem_cons_self)
    exact absurd (lt_of_lt_of_le hlt hle) (lt_irrefl _)

/-- A posting that is there is dropped. -/
theorem remove_posting_spec (hafter : ∀ a b, after a b = true ↔ rank b < rank a) {key : α}
    (h : OrderedPostings rank bulk entries) (hmem : key ∈ entries) :
    OrderedPostings rank bulk (removePosting after entries key bulk) ∧
      entries.Perm (key :: removePosting after entries key bulk) := by
  suffices hperm : entries.Perm (key :: removePosting after entries key bulk) ∧
      (bulk = false → KeySorted rank (removePosting after entries key bulk)) from
    ⟨⟨(pairwise_cons.1 (distinct_of_perm h.distinct hperm.1)).2, hperm.2⟩, hperm.1⟩
  unfold removePosting
  cases bulk with
  | true =>
      rw [if_pos rfl]
      refine ⟨?_, fun h => absurd h (by decide)⟩
      obtain ⟨a, l₁, l₂, hl₁, ha, hentries, herase⟩ := exists_of_eraseP
        (p := (sameEntry after · key)) hmem ((same_entry_iff hafter).2 rfl)
      have hakey : a = key :=
        h.eq_of_rank (by rw [hentries]; simp) hmem ((same_entry_iff hafter).1 ha)
      rw [herase, hentries, hakey]
      exact perm_middle
  | false =>
      rw [if_neg (by decide)]
      have hget := getElem?_lower_bound hafter (h.sorted rfl) hmem
      have hsame : sameEntry after key key = true := (same_entry_iff hafter).2 rfl
      simp only [hget, Option.any_some, hsame, if_true]
      refine ⟨?_, fun _ => List.Pairwise.sublist (eraseIdx_sublist _ _) (h.sorted rfl)⟩
      obtain ⟨hlt, hkey⟩ := List.getElem?_eq_some_iff.1 hget
      have hperm := (getElem_cons_eraseIdx_perm hlt).symm
      rwa [hkey] at hperm

/-- The stable sort that ends a bulk load. -/
def sortPostings (after : α → α → Bool) (entries : List α) : List α :=
  entries.mergeSort fun a b => !after a b

theorem sort_postings_spec (hafter : ∀ a b, after a b = true ↔ rank b < rank a)
    (h : OrderedPostings rank bulk entries) :
    OrderedPostings rank false (sortPostings after entries) ∧
      (sortPostings after entries).Perm entries := by
  have hperm := mergeSort_perm entries fun a b => !after a b
  have hle : ∀ a b, (!after a b) = true ↔ rank a ≤ rank b := by
    intro a b
    rw [Bool.not_eq_true', Bool.eq_false_iff, ne_eq, hafter, not_lt]
  have hdistinct := distinct_of_perm h.distinct hperm.symm
  have hsorted := @pairwise_mergeSort _ (fun a b => !after a b)
    (fun a b c hab hbc => (hle _ _).2 (((hle _ _).1 hab).trans ((hle _ _).1 hbc)))
    (fun a b => by
      rw [Bool.or_eq_true, hle, hle]
      exact le_total _ _) entries
  refine ⟨⟨hdistinct, fun _ => ?_⟩, hperm⟩
  exact (hsorted.and hdistinct).imp fun ⟨hab, hne⟩ => lt_of_le_of_ne ((hle _ _).1 hab) hne

end Ordered

end Akasha.Lib

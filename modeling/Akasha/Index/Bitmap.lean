import Akasha.Lib.Except
import Mathlib.Algebra.GroupWithZero.Nat
import Mathlib.Data.List.GetD
import Mathlib.Data.List.TakeWhile

/-!
# Candidate bitmaps

A bitmap is a list of 64-bit words with its size and a cached number of set bits, as
`index/bitmap.mojo` keeps them. `Bitmap.has` reads one bit. The operations are stated by what
they do to the bits; `Bitmap.WellFormed` says that no bit lies behind the size and that the
cached count is right, which is what lets an empty intersection be recognised by its count.
-/

namespace Akasha.Index

open Lib List

/-- The number of one bits of a word. -/
def popCount (word : BitVec 64) : Nat :=
  (range 64).countP word.getLsbD

/-- The words that `size` bits need. -/
def wordCount (size : Nat) : Nat :=
  (size + 63) / 64

/-- A dense candidate bitmap with its cached cardinality. -/
structure Bitmap where
  size : Nat
  count : Nat
  words : List (BitVec 64)
deriving DecidableEq, Repr

namespace Bitmap

/-- `Bitmap(size)`: no bit is set. -/
def ofSize (size : Nat) : Bitmap :=
  ⟨size, 0, replicate (wordCount size) 0⟩

/-- The word of position `index`. -/
def wordAt (bitmap : Bitmap) (index : Nat) : BitVec 64 :=
  bitmap.words.getD (index / 64) 0

/-- The bit of position `index` in its word. -/
def bitMask (index : Nat) : BitVec 64 :=
  1#64 <<< (index % 64)

/-- Grow to `size` with clear bits. -/
def resize (bitmap : Bitmap) (size : Nat) : Except String Bitmap := do
  require (bitmap.size ≤ size) "bitmap resize cannot shrink"
  pure { bitmap with
    size := size
    words := bitmap.words ++ replicate (wordCount size - bitmap.words.length) 0 }

def set (bitmap : Bitmap) (index : Nat) : Except String Bitmap := do
  require (index < bitmap.size) "bitmap index out of bounds"
  if bitmap.wordAt index &&& bitMask index = 0 then
    pure { bitmap with
      words := bitmap.words.set (index / 64) (bitmap.wordAt index ||| bitMask index)
      count := bitmap.count + 1 }
  else pure bitmap

def clear (bitmap : Bitmap) (index : Nat) : Except String Bitmap := do
  require (index < bitmap.size) "bitmap index out of bounds"
  if bitmap.wordAt index &&& bitMask index = 0 then pure bitmap
  else
    pure { bitmap with
      words := bitmap.words.set (index / 64) (bitmap.wordAt index &&& ~~~ bitMask index)
      count := bitmap.count - 1 }

def contains (bitmap : Bitmap) (index : Nat) : Except String Bool := do
  require (index < bitmap.size) "bitmap index out of bounds"
  pure (bitmap.wordAt index &&& bitMask index ≠ 0)

/-- `_mask_unused_tail`: clear the bits of the last word behind the size. -/
def maskUnusedTail (size : Nat) (words : List (BitVec 64)) : List (BitVec 64) :=
  if size % 64 = 0 then words
  else words.modify (words.length - 1) (· &&& (1#64 <<< (size % 64) - 1))

/-- `_recount_words`. -/
def recountWords (words : List (BitVec 64)) : Nat :=
  (words.map popCount).sum

def intersection (bitmap other : Bitmap) : Except String Bitmap := do
  require (bitmap.size = other.size) "bitmap sizes must match"
  let words := zipWith (· &&& ·) bitmap.words other.words
  pure ⟨bitmap.size, recountWords words, words⟩

def unionWith (bitmap other : Bitmap) : Except String Bitmap := do
  require (bitmap.size = other.size) "bitmap sizes must match"
  let words := maskUnusedTail bitmap.size (zipWith (· ||| ·) bitmap.words other.words)
  pure ⟨bitmap.size, recountWords words, words⟩

def difference (bitmap other : Bitmap) : Except String Bitmap := do
  require (bitmap.size = other.size) "bitmap sizes must match"
  let words := maskUnusedTail bitmap.size
    (zipWith (fun a b => a &&& ~~~ b) bitmap.words other.words)
  pure ⟨bitmap.size, recountWords words, words⟩

/-- The loop over one word in `set_ordinals`: its one bits in order, up to the size. -/
def wordOrdinals (size first : Nat) (word : BitVec 64) : List Nat :=
  (((range 64).filter word.getLsbD).map (first + ·)).takeWhile (· < size)

/-- `set_ordinals`: the set positions in ascending order. -/
def setOrdinals (bitmap : Bitmap) : List Nat :=
  (range bitmap.words.length).flatMap fun i =>
    wordOrdinals bitmap.size (i * 64) (bitmap.words.getD i 0)

/-! ## Reading bits -/

/-- Whether the bit of position `index` is set. -/
def has (bitmap : Bitmap) (index : Nat) : Bool :=
  (bitmap.wordAt index).getLsbD (index % 64)

/-- The words are those the size needs, no bit is set behind it, and the count is right. -/
structure WellFormed (bitmap : Bitmap) : Prop where
  length_eq : bitmap.words.length = wordCount bitmap.size
  tail_clear : ∀ index, bitmap.size ≤ index → bitmap.has index = false
  count_eq : bitmap.count = recountWords bitmap.words

theorem get_lsb_d_bit_mask (index k : Nat) (hk : k < 64) :
    (bitMask index).getLsbD k = decide (k = index % 64) := by
  unfold bitMask
  rw [BitVec.getLsbD_shiftLeft, BitVec.getLsbD_one]
  by_cases h : k = index % 64
  · subst h
    simp [hk]
  · simp only [h, decide_false]
    by_cases hlt : k < index % 64
    · simp [hlt]
    · have : k - index % 64 ≠ 0 := by omega
      simp [this]

theorem and_bit_mask_eq_zero (word : BitVec 64) (index : Nat) :
    word &&& bitMask index = 0 ↔ word.getLsbD (index % 64) = false := by
  have hlt : index % 64 < 64 := Nat.mod_lt _ (by decide)
  constructor
  · intro h
    have := congrArg (fun w => w.getLsbD (index % 64)) h
    simpa [BitVec.getLsbD_and, get_lsb_d_bit_mask _ _ hlt] using this
  · intro h
    refine BitVec.eq_of_getLsbD_eq fun k hk => ?_
    rw [BitVec.getLsbD_and, get_lsb_d_bit_mask _ _ hk]
    by_cases hkm : k = index % 64
    · rw [hkm, h]
      simp
    · simp [hkm]

variable {bitmap : Bitmap} {index : Nat}

theorem WellFormed.div_lt (h : bitmap.WellFormed) (hindex : index < bitmap.size) :
    index / 64 < bitmap.words.length := by
  rw [h.length_eq]
  unfold wordCount
  omega

theorem contains_ok (hindex : index < bitmap.size) :
    bitmap.contains index = .ok (bitmap.has index) := by
  unfold contains require
  rw [if_pos hindex]
  change Except.ok _ = Except.ok _
  congr 1
  unfold has
  rw [Bool.eq_iff_iff, decide_eq_true_iff, ne_eq, and_bit_mask_eq_zero, Bool.not_eq_false]

/-! ## Counting bits -/

/-- One more element satisfies a predicate that was extended by it. -/
private theorem count_p_extend {p q : Nat → Bool} {a : Nat} {l : List Nat} (hl : l.Nodup)
    (ha : a ∈ l) (hp : p a = false) (hq : ∀ x ∈ l, q x = (p x || decide (x = a))) :
    l.countP q = l.countP p + 1 := by
  induction l with
  | nil => exact absurd ha not_mem_nil
  | cons x l ih =>
      obtain ⟨hx, hnodup⟩ := nodup_cons.1 hl
      rw [countP_cons, countP_cons, hq x mem_cons_self]
      by_cases hxa : x = a
      · subst hxa
        have hrest : l.countP q = l.countP p := countP_congr fun y hy => by
          have hne : y ≠ x := fun h => hx (h ▸ hy)
          rw [hq y (mem_cons_of_mem x hy)]
          simp [hne]
        simp [hrest, hp]
      · have hrest := ih hnodup ((mem_cons.1 ha).resolve_left (Ne.symm hxa))
          fun y hy => hq y (mem_cons_of_mem x hy)
        simp only [hrest, hxa, decide_false, Bool.or_false]
        omega

theorem pop_count_extend {word other : BitVec 64} {k : Nat} (hk : k < 64)
    (hclear : word.getLsbD k = false)
    (hother : ∀ i < 64, other.getLsbD i = (word.getLsbD i || decide (i = k))) :
    popCount other = popCount word + 1 :=
  count_p_extend nodup_range (mem_range.2 hk) hclear
    fun i hi => hother i (mem_range.1 hi)

theorem pop_count_eq_zero {word : BitVec 64} (h : popCount word = 0) (k : Nat) :
    word.getLsbD k = false := by
  by_cases hk : k < 64
  · exact Bool.eq_false_iff.2 fun hbit =>
      countP_eq_zero.1 h k (mem_range.2 hk) hbit
  · exact BitVec.getLsbD_of_ge _ _ (by omega)

theorem recount_words_set {words : List (BitVec 64)} {i : Nat} (word : BitVec 64)
    (h : i < words.length) :
    recountWords (words.set i word) + popCount (words.getD i 0) =
      recountWords words + popCount word := by
  unfold recountWords
  induction words generalizing i with
  | nil => exact absurd h (Nat.not_lt_zero i)
  | cons first words ih =>
      cases i with
      | zero =>
          simp only [set_cons_zero, map_cons, sum_cons, getD_cons_zero]
          omega
      | succ i =>
          have := ih (i := i) (by simpa using h)
          simp only [set_cons_succ, map_cons, sum_cons, getD_cons_succ]
          omega

theorem WellFormed.has_eq_false (h : bitmap.WellFormed) (hcount : bitmap.count = 0) (index : Nat) :
    bitmap.has index = false := by
  unfold has wordAt
  by_cases hi : index / 64 < bitmap.words.length
  · refine pop_count_eq_zero ?_ _
    have hsum : recountWords bitmap.words = 0 := h.count_eq.symm.trans hcount
    rw [List.getD_eq_getElem _ _ hi]
    exact List.sum_eq_zero_iff_forall_eq_nat.1 hsum _ (List.mem_map_of_mem (List.getElem_mem hi))
  · rw [List.getD_eq_default _ _ (by omega)]
    exact BitVec.getLsbD_zero

/-! ## What each operation does to the bits -/

theorem of_size_has (size index : Nat) : (ofSize size).has index = false := by
  unfold has wordAt ofSize
  simp only
  rw [getD_eq_getElem?_getD, getElem?_getD_replicate_default_eq]
  exact BitVec.getLsbD_zero

theorem of_size_well_formed (size : Nat) : (ofSize size).WellFormed where
  length_eq := length_replicate
  tail_clear index _ := of_size_has size index
  count_eq := by
    unfold recountWords ofSize
    rw [map_replicate, sum_replicate_nat]
    show 0 = wordCount size * popCount 0
    rw [show popCount 0 = 0 by decide, Nat.mul_zero]

theorem has_set_word (bitmap : Bitmap) (count : Nat) (word : BitVec 64)
    (h : index / 64 < bitmap.words.length) (i : Nat) :
    has { bitmap with words := bitmap.words.set (index / 64) word, count := count } i =
      if i / 64 = index / 64 then word.getLsbD (i % 64) else bitmap.has i := by
  unfold has wordAt
  simp only [getD_eq_getElem?_getD, getElem?_set]
  by_cases hi : i / 64 = index / 64
  · rw [if_pos hi.symm, if_pos h, if_pos hi, Option.getD_some]
  · rw [if_neg (Ne.symm hi), if_neg hi]

private theorem eq_of_div_mod {i index : Nat} (hdiv : i / 64 = index / 64)
    (hmod : i % 64 = index % 64) : i = index := by
  omega

theorem set_ok (h : bitmap.WellFormed) (hindex : index < bitmap.size) :
    ∃ result, bitmap.set index = .ok result ∧ result.WellFormed ∧ result.size = bitmap.size ∧
      ∀ i, result.has i = (bitmap.has i || decide (i = index)) := by
  have hword := h.div_lt hindex
  have hmod : index % 64 < 64 := Nat.mod_lt _ (by decide)
  unfold set require
  rw [if_pos hindex]
  simp only [and_bit_mask_eq_zero]
  by_cases hbit : (bitmap.wordAt index).getLsbD (index % 64) = false
  case neg =>
    have hset : bitmap.has index = true := Bool.not_eq_false _ ▸ hbit
    refine ⟨bitmap, if_neg hbit, h, rfl, fun i => ?_⟩
    by_cases hi : i = index
    · simp [hi, hset]
    · simp [hi]
  have hor : ∀ k < 64, (bitmap.wordAt index ||| bitMask index).getLsbD k =
      ((bitmap.wordAt index).getLsbD k || decide (k = index % 64)) := by
    intro k hk
    rw [BitVec.getLsbD_or, get_lsb_d_bit_mask _ _ hk]
  have hhas := fun count => has_set_word bitmap count
    (bitmap.wordAt index ||| bitMask index) hword
  have hbits : ∀ i, has { bitmap with
      words := bitmap.words.set (index / 64) (bitmap.wordAt index ||| bitMask index)
      count := bitmap.count + 1 } i = (bitmap.has i || decide (i = index)) := by
    intro i
    rw [hhas]
    split
    · rename_i hdiv
      rw [hor _ (Nat.mod_lt _ (by decide))]
      unfold has wordAt
      rw [hdiv]
      congr 1
      exact decide_eq_decide.2 ⟨fun hm => eq_of_div_mod hdiv hm, fun he => by rw [he]⟩
    · have hi : i ≠ index := fun he => by simp_all
      simp [hi]
  refine ⟨_, if_pos hbit, ⟨?_, fun i hi => ?_, ?_⟩, rfl, hbits⟩
  · rw [length_set]
    exact h.length_eq
  · have hne : i ≠ index := by
      rintro rfl
      exact absurd hindex (Nat.not_lt.2 hi)
    rw [hbits, h.tail_clear i hi]
    simp [hne]
  · have hrecount := recount_words_set (bitmap.wordAt index ||| bitMask index) hword
    have hpop := pop_count_extend hmod hbit hor
    have := h.count_eq
    unfold wordAt at hpop hrecount ⊢
    simp only
    omega

theorem clear_ok (h : bitmap.WellFormed) (hindex : index < bitmap.size) :
    ∃ result, bitmap.clear index = .ok result ∧ result.WellFormed ∧ result.size = bitmap.size ∧
      ∀ i, result.has i = (bitmap.has i && decide (i ≠ index)) := by
  have hword := h.div_lt hindex
  have hmod : index % 64 < 64 := Nat.mod_lt _ (by decide)
  unfold clear require
  rw [if_pos hindex]
  simp only [and_bit_mask_eq_zero]
  by_cases hbit : (bitmap.wordAt index).getLsbD (index % 64) = false
  case pos =>
    have hclear : bitmap.has index = false := hbit
    refine ⟨bitmap, if_pos hbit, h, rfl, fun i => ?_⟩
    by_cases hi : i = index
    · simp [hi, hclear]
    · simp [hi]
  have hand : ∀ k < 64, (bitmap.wordAt index &&& ~~~ bitMask index).getLsbD k =
      ((bitmap.wordAt index).getLsbD k && decide (k ≠ index % 64)) := by
    intro k hk
    rw [BitVec.getLsbD_and, BitVec.getLsbD_not, get_lsb_d_bit_mask _ _ hk, decide_eq_true hk,
      Bool.true_and, decide_not]
  have hbits : ∀ i, has { bitmap with
      words := bitmap.words.set (index / 64) (bitmap.wordAt index &&& ~~~ bitMask index)
      count := bitmap.count - 1 } i = (bitmap.has i && decide (i ≠ index)) := by
    intro i
    rw [has_set_word _ _ _ hword]
    split
    · rename_i hdiv
      rw [hand _ (Nat.mod_lt _ (by decide))]
      unfold has wordAt
      rw [hdiv]
      congr 1
      exact decide_eq_decide.2 (not_congr ⟨fun hm => eq_of_div_mod hdiv hm, fun he => by rw [he]⟩)
    · have hi : i ≠ index := fun he => by simp_all
      simp [hi]
  refine ⟨_, if_neg hbit, ⟨?_, fun i hi => ?_, ?_⟩, rfl, hbits⟩
  · rw [length_set]
    exact h.length_eq
  · rw [hbits, h.tail_clear i hi, Bool.false_and]
  · have hrecount := recount_words_set (bitmap.wordAt index &&& ~~~ bitMask index) hword
    have hpop : popCount (bitmap.wordAt index) =
        popCount (bitmap.wordAt index &&& ~~~ bitMask index) + 1 := by
      refine pop_count_extend hmod (by rw [hand _ hmod]; simp) fun k hk => ?_
      rw [hand k hk]
      by_cases hkm : k = index % 64
      · rw [hkm]
        simpa using hbit
      · simp [hkm]
    have := h.count_eq
    unfold wordAt at hpop hrecount ⊢
    simp only
    omega

theorem resize_ok (h : bitmap.WellFormed) {size : Nat} (hsize : bitmap.size ≤ size) :
    ∃ result, bitmap.resize size = .ok result ∧ result.WellFormed ∧ result.size = size ∧
      ∀ i, result.has i = bitmap.has i := by
  unfold resize require
  rw [if_pos hsize]
  have hbits : ∀ i, has { bitmap with
      size := size
      words := bitmap.words ++ replicate (wordCount size - bitmap.words.length) 0 } i =
        bitmap.has i := by
    intro i
    unfold has wordAt
    simp only
    by_cases hi : i / 64 < bitmap.words.length
    · rw [getD_append _ _ _ _ hi]
    · rw [getD_append_right _ _ _ _ (by omega), getD_eq_getElem?_getD,
        getElem?_getD_replicate_default_eq, getD_eq_default _ _ (by omega)]
  refine ⟨_, rfl, ⟨?_, fun i hi => ?_, ?_⟩, rfl, hbits⟩
  · have hlen := h.length_eq
    simp only [length_append, length_replicate]
    unfold wordCount at hlen ⊢
    omega
  · rw [hbits]
    exact h.tail_clear i (Nat.le_trans hsize hi)
  · have hzero : popCount 0 = 0 := by decide
    unfold recountWords
    simp only [map_append, sum_append, map_replicate, hzero,
      sum_replicate_nat, Nat.mul_zero, Nat.add_zero]
    exact h.count_eq

theorem WellFormed.length_eq_of_size {bitmap other : Bitmap} (h : bitmap.WellFormed)
    (h' : other.WellFormed) (hsize : bitmap.size = other.size) :
    bitmap.words.length = other.words.length := by
  rw [h.length_eq, h'.length_eq, hsize]

theorem get_d_zip_with {f : BitVec 64 → BitVec 64 → BitVec 64} {as bs : List (BitVec 64)}
    (hlen : as.length = bs.length) (hf : f 0 0 = 0) (i : Nat) :
    (zipWith f as bs).getD i 0 = f (as.getD i 0) (bs.getD i 0) := by
  by_cases hi : i < as.length
  · rw [getD_eq_getElem _ _ (by rw [length_zipWith]; omega), getElem_zipWith,
      getD_eq_getElem _ _ hi, getD_eq_getElem _ _ (by omega)]
  · rw [getD_eq_default _ _ (by rw [length_zipWith]; omega),
      getD_eq_default _ _ (by omega), getD_eq_default _ _ (by omega), hf]

theorem get_lsb_d_used_mask {used : Nat} (hused : used < 64) (k : Nat) :
    (1#64 <<< used - 1).getLsbD k = decide (k < used) := by
  have hpow : (2 : Nat) ^ used < 2 ^ 64 := Nat.pow_lt_pow_right (by decide) hused
  have hval : (1#64 <<< used - 1).toNat = 2 ^ used - 1 := by
    have hpos : 0 < 2 ^ used := Nat.two_pow_pos used
    have hshift : (1#64 <<< used).toNat = 2 ^ used := by
      rw [BitVec.toNat_shiftLeft, BitVec.toNat_ofNat, Nat.one_mod_two_pow (by decide),
        Nat.one_shiftLeft, Nat.mod_eq_of_lt hpow]
    rw [BitVec.toNat_sub_of_le]
    · rw [hshift]
      rfl
    · rw [BitVec.le_def, hshift]
      exact hpos
  rw [BitVec.getLsbD, hval, Nat.testBit_two_pow_sub_one]

/-- Masking the tail clears the bits behind the size and no other. -/
theorem mask_unused_tail_bit {size : Nat} {words : List (BitVec 64)}
    (hlen : words.length = wordCount size) (i : Nat) :
    ((maskUnusedTail size words).getD (i / 64) 0).getLsbD (i % 64) =
      ((words.getD (i / 64) 0).getLsbD (i % 64) && decide (i < size)) := by
  have hmod : i % 64 < 64 := Nat.mod_lt _ (by decide)
  unfold wordCount at hlen
  have hout : ∀ ws : List (BitVec 64), ws.length = words.length → size ≤ i →
      words.length ≤ i / 64 → (ws.getD (i / 64) 0).getLsbD (i % 64) = false := by
    intro ws hws _ hge
    rw [getD_eq_default _ _ (by omega)]
    exact BitVec.getLsbD_zero
  unfold maskUnusedTail
  split
  · rename_i haligned
    by_cases hi : i < size
    · simp [hi]
    · rw [hout words rfl (by omega) (by omega), Bool.false_and]
  · rename_i haligned
    by_cases hlast : i / 64 = words.length - 1 ∧ words.length ≠ 0
    · obtain ⟨hlast, hne⟩ := hlast
      have hlt : words.length - 1 < words.length := by omega
      rw [hlast, getD_eq_getElem _ _ (by rw [length_modify]; exact hlt),
        getElem_modify_eq, BitVec.getLsbD_and,
        get_lsb_d_used_mask (Nat.mod_lt _ (by decide)), getD_eq_getElem _ _ hlt]
      congr 1
      exact decide_eq_decide.2 (by omega)
    · have hsame : (words.modify (words.length - 1) (· &&& (1#64 <<< (size % 64) - 1))).getD
          (i / 64) 0 = words.getD (i / 64) 0 := by
        rw [getD_eq_getElem?_getD, getD_eq_getElem?_getD, getElem?_modify]
        split
        · rename_i heq
          have : words.length = 0 := by
            by_contra hne
            exact hlast ⟨heq.symm, hne⟩
          rw [eq_nil_of_length_eq_zero this]
          rfl
        · simp
      rw [hsame]
      by_cases hi : i < size
      · simp [hi]
      · rw [hout words rfl (by omega) (by omega), Bool.false_and]

theorem mask_unused_tail_length (size : Nat) (words : List (BitVec 64)) :
    (maskUnusedTail size words).length = words.length := by
  unfold maskUnusedTail
  split
  · rfl
  · rw [length_modify]

theorem intersection_ok {bitmap other : Bitmap} (h : bitmap.WellFormed) (h' : other.WellFormed)
    (hsize : bitmap.size = other.size) :
    ∃ result, bitmap.intersection other = .ok result ∧ result.WellFormed ∧
      result.size = bitmap.size ∧ ∀ i, result.has i = (bitmap.has i && other.has i) := by
  have hlen := h.length_eq_of_size h' hsize
  unfold intersection require
  rw [if_pos hsize]
  have hbits : ∀ i, has ⟨bitmap.size, recountWords (zipWith (· &&& ·) bitmap.words other.words),
      zipWith (· &&& ·) bitmap.words other.words⟩ i = (bitmap.has i && other.has i) := by
    intro i
    unfold has wordAt
    rw [get_d_zip_with hlen (by decide), BitVec.getLsbD_and]
  refine ⟨_, rfl, ⟨?_, fun i hi => ?_, rfl⟩, rfl, hbits⟩
  · rw [length_zipWith, ← hlen, Nat.min_self]
    exact h.length_eq
  · rw [hbits, h.tail_clear i hi, Bool.false_and]

theorem union_with_ok {bitmap other : Bitmap} (h : bitmap.WellFormed) (h' : other.WellFormed)
    (hsize : bitmap.size = other.size) :
    ∃ result, bitmap.unionWith other = .ok result ∧ result.WellFormed ∧
      result.size = bitmap.size ∧ ∀ i, result.has i = (bitmap.has i || other.has i) := by
  have hlen := h.length_eq_of_size h' hsize
  have hzip : (zipWith (· ||| ·) bitmap.words other.words).length = wordCount bitmap.size := by
    rw [length_zipWith, ← hlen, Nat.min_self]
    exact h.length_eq
  unfold unionWith require
  rw [if_pos hsize]
  refine ⟨_, rfl, ⟨?_, fun i hi => ?_, rfl⟩, rfl, fun i => ?_⟩
  · rw [mask_unused_tail_length, hzip]
  · unfold has wordAt
    rw [mask_unused_tail_bit hzip, decide_eq_false (Nat.not_lt.2 hi), Bool.and_false]
  · unfold has wordAt
    rw [mask_unused_tail_bit hzip, get_d_zip_with hlen (by decide), BitVec.getLsbD_or]
    by_cases hi : i < bitmap.size
    · rw [decide_eq_true hi, Bool.and_true]
    · have h₁ := h.tail_clear i (by omega)
      have h₂ := h'.tail_clear i (by omega)
      unfold has wordAt at h₁ h₂
      rw [h₁, h₂]
      rfl

theorem difference_ok {bitmap other : Bitmap} (h : bitmap.WellFormed) (h' : other.WellFormed)
    (hsize : bitmap.size = other.size) :
    ∃ result, bitmap.difference other = .ok result ∧ result.WellFormed ∧
      result.size = bitmap.size ∧ ∀ i, result.has i = (bitmap.has i && !other.has i) := by
  have hlen := h.length_eq_of_size h' hsize
  have hmod : ∀ i, i % 64 < 64 := fun i => Nat.mod_lt _ (by decide)
  have hzip : (zipWith (fun a b => a &&& ~~~ b) bitmap.words other.words).length =
      wordCount bitmap.size := by
    rw [length_zipWith, ← hlen, Nat.min_self]
    exact h.length_eq
  unfold difference require
  rw [if_pos hsize]
  refine ⟨_, rfl, ⟨?_, fun i hi => ?_, rfl⟩, rfl, fun i => ?_⟩
  · rw [mask_unused_tail_length, hzip]
  · unfold has wordAt
    rw [mask_unused_tail_bit hzip, decide_eq_false (Nat.not_lt.2 hi), Bool.and_false]
  · unfold has wordAt
    rw [mask_unused_tail_bit hzip, get_d_zip_with hlen (by decide), BitVec.getLsbD_and,
      BitVec.getLsbD_not, decide_eq_true (hmod i), Bool.true_and]
    by_cases hi : i < bitmap.size
    · rw [decide_eq_true hi, Bool.and_true]
    · have h₁ := h.tail_clear i (by omega)
      unfold has wordAt at h₁
      rw [h₁]
      rfl

/-! ## Listing bits -/

theorem range_words (n : Nat) :
    range (n * 64) = (range n).flatMap fun i => (range 64).map (i * 64 + ·) := by
  induction n with
  | zero => rfl
  | succ n ih =>
      have hsucc : range (n + 1) = range n ++ [n] := range_succ
      rw [Nat.succ_mul, range_add, ih, hsucc, flatMap_append, flatMap_singleton]

theorem has_word (bitmap : Bitmap) {i j : Nat} (hj : j < 64) :
    bitmap.has (i * 64 + j) = (bitmap.words.getD i 0).getLsbD j := by
  have hdiv : (i * 64 + j) / 64 = i := by omega
  have hmod : (i * 64 + j) % 64 = j := by omega
  unfold has wordAt
  rw [hdiv, hmod]

/-- The set positions are those of the set bits. -/
theorem set_ordinals_eq (h : bitmap.WellFormed) :
    bitmap.setOrdinals = (range bitmap.size).filter bitmap.has := by
  have hword : ∀ i, wordOrdinals bitmap.size (i * 64) (bitmap.words.getD i 0) =
      ((range 64).map (i * 64 + ·)).filter bitmap.has := by
    intro i
    have hbits : (range 64).filter (bitmap.words.getD i 0).getLsbD =
        (range 64).filter (bitmap.has ∘ (i * 64 + ·)) :=
      filter_congr fun j hj => (has_word bitmap (mem_range.1 hj)).symm
    unfold wordOrdinals
    rw [hbits, ← filter_map, takeWhile_eq_self_iff]
    intro o ho
    refine decide_eq_true (Nat.lt_of_not_le fun hle => ?_)
    have := h.tail_clear o hle
    rw [(mem_filter.1 ho).2] at this
    cases this
  -- Nothing is set between the size and the end of the last word.
  have hcover : bitmap.size + (bitmap.words.length * 64 - bitmap.size) =
      bitmap.words.length * 64 := by
    rw [h.length_eq]
    unfold wordCount
    omega
  have htail : ((range (bitmap.words.length * 64 - bitmap.size)).map
      (bitmap.size + ·)).filter bitmap.has = [] := by
    refine filter_eq_nil_iff.2 fun o ho => ?_
    obtain ⟨j, -, rfl⟩ := mem_map.1 ho
    rw [h.tail_clear _ (Nat.le_add_right _ _)]
    exact Bool.false_ne_true
  calc bitmap.setOrdinals
      = (range (bitmap.words.length * 64)).filter bitmap.has := by
        unfold setOrdinals
        rw [range_words, filter_flatMap]
        simp only [hword]
    _ = (range bitmap.size).filter bitmap.has := by
        rw [← hcover, range_add, filter_append, htail, append_nil]

end Bitmap

end Akasha.Index

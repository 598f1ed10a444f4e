import Akasha.Lib.Bytes

/-!
# What a reader takes

`Reads reader bytes value` says that a reader takes exactly `bytes` off the front of any input
that starts with them, and returns `value`. The rules follow the reader's own structure: a value,
a sequence, a check, a loop. The round trip of a format is then read off its decoder, statement
by statement, against the parts its encoder wrote.
-/

namespace Akasha.Lib

open List

variable {α β : Type}

/-- The reader takes exactly these bytes and returns this value, whatever follows. -/
def Reads (reader : Reader α) (bytes : List UInt8) (value : α) : Prop :=
  ∀ rest, reader (bytes ++ rest) = .ok (value, rest)

theorem reads_pure (value : α) : Reads (pure value) [] value :=
  fun _ => rfl

variable {reader : Reader α} {next : α → Reader β} {b : β} {a : α}

theorem reads_bind {first second : List UInt8} (hfirst : Reads reader first a)
    (hsecond : Reads (next a) second b) :
    Reads (reader >>= next) (first ++ second) b := by
  intro rest
  show (reader (first ++ second ++ rest) >>= fun result => next result.1 result.2) = _
  rw [append_assoc, hfirst]
  exact hsecond rest

variable {bytes : List UInt8}

theorem reads_silent (hfirst : Reads reader [] a) (hsecond : Reads (next a) bytes b) :
    Reads (reader >>= next) bytes b :=
  reads_bind hfirst hsecond

theorem reads_last (hfirst : Reads reader bytes a) (hsecond : Reads (next a) [] b) :
    Reads (reader >>= next) bytes b := by
  rw [← append_nil bytes]
  exact reads_bind hfirst hsecond

theorem reads_map (f : α → β) (h : Reads reader bytes a) : Reads (f <$> reader) bytes (f a) := by
  intro rest
  show (reader (bytes ++ rest) >>= fun result => pure (f result.1, result.2)) = _
  rw [h rest]
  rfl

/-! ## Checks -/

/-- Raise the message unless the condition holds. -/
def check (condition : Prop) [Decidable condition] (message : String) : Reader Unit := fun bytes =>
  if condition then .ok ((), bytes) else .error message

variable {message : String}

theorem reads_check {condition : Prop} [Decidable condition] {next : Unit → Reader β}
    (hcondition : condition) (h : Reads (next ()) bytes b) :
    Reads (check condition message >>= next) bytes b := by
  refine reads_silent (fun rest => ?_) h
  simp [check, hcondition]

/-- The result of a decoder of its own. -/
def ofResult (result : Except String α) : Reader α := fun bytes =>
  match result with
  | .ok value => .ok (value, bytes)
  | .error message => .error message

variable {value : α}

theorem reads_of_result {result : Except String α} (h : result = .ok value) :
    Reads (ofResult result) [] value := by
  intro rest
  simp [ofResult, h]

variable {result : β × List UInt8}

theorem reads_then {first second : List UInt8} (hfirst : Reads reader first a)
    (h : (reader >>= next) (first ++ second) = .ok result) : next a second = .ok result := by
  change (reader (first ++ second) >>= fun read => next read.1 read.2) = .ok result at h
  rw [hfirst] at h
  exact h

theorem check_then {condition : Prop} [Decidable condition] {next : Unit → Reader β}
    (h : (check condition message >>= next) bytes = .ok result) :
    condition ∧ next () bytes = .ok result := by
  change (check condition message bytes >>= fun read => next read.1 read.2) = .ok result at h
  rw [check] at h
  split at h
  · rename_i hcondition
    exact ⟨hcondition, h⟩
  · cases h

/-! ## Readers that returned -/

theorem reader_bind_ok :
    (reader >>= next) bytes = .ok result ↔
      ∃ a rest, reader bytes = .ok (a, rest) ∧ next a rest = .ok result := by
  change (reader bytes >>= fun read => next read.1 read.2) = .ok result ↔ _
  rcases reader bytes with message | ⟨a, rest⟩
  · simp [bind, Except.bind]
  · simp [bind, Except.bind]

theorem reader_pure_ok {result : α × List UInt8} :
    (pure value : Reader α) bytes = .ok result ↔ (value, bytes) = result := by
  change Except.ok (value, bytes) = .ok result ↔ _
  simp

theorem check_ok {condition : Prop} [Decidable condition] {bytes rest : List UInt8} {u : Unit} :
    check condition message bytes = .ok (u, rest) ↔ condition ∧ bytes = rest := by
  unfold check
  split <;> simp_all

theorem of_result_ok {result : Except String α} {bytes rest : List UInt8} :
    ofResult result bytes = .ok (value, rest) ↔ result = .ok value ∧ bytes = rest := by
  unfold ofResult
  cases result <;> simp

theorem read_unsigned_ok {count value : Nat} {bytes rest : List UInt8} :
    readUnsigned count bytes = .ok (value, rest) ↔
      count ≤ bytes.length ∧ leValue (bytes.take count) = value ∧ bytes.drop count = rest := by
  unfold readUnsigned
  split <;> simp_all

theorem read_span_ok {count : Nat} {front bytes rest : List UInt8} :
    readSpan count bytes = .ok (front, rest) ↔
      count ≤ bytes.length ∧ bytes.take count = front ∧ bytes.drop count = rest := by
  unfold readSpan
  split <;> simp_all

/-! ## Numbers and spans -/

theorem reads_unsigned {count value : Nat} (h : value < 256 ^ count) :
    Reads (readUnsigned count) (leBytes count value) value := by
  intro rest
  rw [read_unsigned_append, Nat.mod_eq_of_lt h]

theorem reads_span {count : Nat} {front : List UInt8} (h : front.length = count) :
    Reads (readSpan count) front front :=
  fun rest => read_span_append rest h

/-! ## Loops -/

/-- The loop `for index in range(..)` of a reader, from an index on. -/
def readTimes (reader : Nat → Reader α) : Nat → Nat → Reader (List α)
  | _, 0 => pure []
  | index, count + 1 => do
      let value ← reader index
      let values ← readTimes reader (index + 1) count
      pure (value :: values)

theorem reads_times_zero {reader : Nat → Reader α} {index : Nat} :
    Reads (readTimes reader index 0) [] [] :=
  reads_pure []

theorem reads_times_succ {reader : Nat → Reader α} {index count : Nat} {first rest : List UInt8}
    {values : List α} (hfirst : Reads (reader index) first value)
    (hrest : Reads (readTimes reader (index + 1) count) rest values) :
    Reads (readTimes reader index (count + 1)) (first ++ rest) (value :: values) :=
  reads_bind hfirst (reads_last hrest (reads_pure _))

theorem reads_times {write : α → List UInt8} {values : List α}
    (h : ∀ value ∈ values, Reads reader (write value) value) (index : Nat) :
    Reads (readTimes (fun _ => reader) index values.length) (values.flatMap write) values := by
  induction values generalizing index with
  | nil => exact reads_times_zero
  | cons value values ih =>
      rw [forall_mem_cons] at h
      exact reads_times_succ h.1 (ih h.2 (index + 1))

theorem read_times_length {reader : Nat → Reader α} {index count : Nat}
    {bytes rest : List UInt8} {values : List α}
    (h : readTimes reader index count bytes = .ok (values, rest)) : values.length = count := by
  induction count generalizing index bytes values with
  | zero =>
      obtain ⟨rfl, rfl⟩ := Prod.mk.inj (reader_pure_ok.1 h)
      rfl
  | succ count ih =>
      obtain ⟨value, left, -, h⟩ := reader_bind_ok.1 h
      obtain ⟨others, left', hothers, h⟩ := reader_bind_ok.1 h
      obtain ⟨rfl, rfl⟩ := Prod.mk.inj (reader_pure_ok.1 h)
      rw [length_cons, ih hothers]

/-! ## Whole inputs -/

/-- The reader takes the whole input and returns this value. -/
def ReadsAll (reader : Reader α) (bytes : List UInt8) (value : α) : Prop :=
  reader bytes = .ok (value, [])

theorem reads_all (h : Reads reader bytes value) : ReadsAll reader bytes value := by
  have hall := h []
  rwa [append_nil] at hall

theorem all_bind {first second : List UInt8} (hfirst : Reads reader first a)
    (hsecond : ReadsAll (next a) second b) :
    ReadsAll (reader >>= next) (first ++ second) b := by
  show (reader (first ++ second) >>= fun result => next result.1 result.2) = _
  rw [hfirst]
  exact hsecond

theorem all_silent (hfirst : Reads reader [] a) (hsecond : ReadsAll (next a) bytes b) :
    ReadsAll (reader >>= next) bytes b :=
  all_bind hfirst hsecond

theorem all_check {condition : Prop} [Decidable condition] {next : Unit → Reader β}
    (hcondition : condition) (h : ReadsAll (next ()) bytes b) :
    ReadsAll (check condition message >>= next) bytes b := by
  show (check condition message bytes >>= fun result => next result.1 result.2) = _
  rw [check, if_pos hcondition]
  exact h

/-- The number of bytes that are left. -/
def remaining : Reader Nat := fun bytes => .ok (bytes.length, bytes)

theorem all_remaining {next : Nat → Reader β} (h : ReadsAll (next bytes.length) bytes b) :
    ReadsAll (remaining >>= next) bytes b :=
  h

theorem reads_remaining {next : Nat → Reader β}
    (h : ∀ left, bytes.length ≤ left → Reads (next left) bytes b) :
    Reads (remaining >>= next) bytes b :=
  fun rest => h (bytes ++ rest).length (by rw [length_append]; omega) rest

/-- Parts written one after another are what they can be read as. -/
theorem reads_flatten_injective {xs ys : List (α × List UInt8)}
    (hx : ∀ x ∈ xs, Reads reader x.2 x.1 ∧ x.2 ≠ [])
    (hy : ∀ y ∈ ys, Reads reader y.2 y.1 ∧ y.2 ≠ []) (h : xs.flatMap (·.2) = ys.flatMap (·.2)) :
    xs.map (·.1) = ys.map (·.1) := by
  induction xs generalizing ys with
  | nil =>
      cases ys with
      | nil => rfl
      | cons y ys =>
          rw [flatMap_cons, flatMap_nil] at h
          exact absurd (append_eq_nil_iff.1 h.symm).1 (hy y (by simp)).2
  | cons x xs ih =>
      cases ys with
      | nil =>
          rw [flatMap_cons, flatMap_nil] at h
          exact absurd (append_eq_nil_iff.1 h).1 (hx x (by simp)).2
      | cons y ys =>
          rw [forall_mem_cons] at hx hy
          rw [flatMap_cons, flatMap_cons] at h
          have hfirst := hx.1.1 (xs.flatMap (·.2))
          rw [h, hy.1.1] at hfirst
          obtain ⟨hvalue, hrest⟩ := Prod.mk.inj (Except.ok.inj hfirst)
          rw [map_cons, map_cons, ih hx.2 hy.2 hrest.symm, hvalue]

end Akasha.Lib

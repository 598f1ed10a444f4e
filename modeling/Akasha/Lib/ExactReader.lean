import Akasha.Lib.Decoding

/-!
# Readers and writers that determine each other

`Exact reader admits write` says that a reader returns a value from an input exactly when the
value is admitted and the input starts with what is written for it. A format whose decoder is
exact has one encoding for each value: decoding what was written gives it back, and what was
decoded is written back to the same bytes. The rules are equivalences, so that a decoder is taken
apart once and both directions are read off.
-/

namespace Akasha.Lib

open List

variable {α β : Type}

/-- The reader returns the admitted values, each from its own bytes. -/
def Exact (reader : Reader α) (admits : α → Prop) (write : α → List UInt8) : Prop :=
  ∀ bytes value rest, reader bytes = .ok (value, rest) ↔ admits value ∧ bytes = write value ++ rest

variable {bytes : List UInt8} {write : α → List UInt8} {result : β × List UInt8} {reader : Reader α}
  {admits : α → Prop}

theorem Exact.bind_ok (h : Exact reader admits write) {next : α → Reader β} :
    (reader >>= next) bytes = .ok result ↔
      ∃ a, admits a ∧ ∃ rest, bytes = write a ++ rest ∧ next a rest = .ok result := by
  rw [reader_bind_ok]
  constructor
  · rintro ⟨a, rest, hread, hnext⟩
    obtain ⟨hadmits, hbytes⟩ := (h _ _ _).1 hread
    exact ⟨a, hadmits, rest, hbytes, hnext⟩
  · rintro ⟨a, hadmits, rest, hbytes, hnext⟩
    exact ⟨a, rest, (h _ _ _).2 ⟨hadmits, hbytes⟩, hnext⟩

theorem check_bind_ok {condition : Prop} [Decidable condition] {message : String}
    {next : Unit → Reader β} :
    (check condition message >>= next) bytes = .ok result ↔
      condition ∧ next () bytes = .ok result := by
  rw [reader_bind_ok]
  constructor
  · rintro ⟨_, rest, hcheck, hnext⟩
    obtain ⟨hcondition, rfl⟩ := check_ok.1 hcheck
    exact ⟨hcondition, hnext⟩
  · rintro ⟨hcondition, hnext⟩
    exact ⟨(), bytes, check_ok.2 ⟨hcondition, rfl⟩, hnext⟩

theorem of_result_bind_ok {computed : Except String α} {next : α → Reader β} :
    (ofResult computed >>= next) bytes = .ok result ↔
      ∃ a, computed = .ok a ∧ next a bytes = .ok result := by
  rw [reader_bind_ok]
  constructor
  · rintro ⟨a, rest, hcomputed, hnext⟩
    obtain ⟨hvalue, rfl⟩ := of_result_ok.1 hcomputed
    exact ⟨a, hvalue, hnext⟩
  · rintro ⟨a, hvalue, hnext⟩
    exact ⟨a, bytes, of_result_ok.2 ⟨hvalue, rfl⟩, hnext⟩

theorem remaining_bind_ok {next : Nat → Reader β} :
    (remaining >>= next) bytes = .ok result ↔ next bytes.length bytes = .ok result :=
  Iff.rfl

theorem le_bytes_le_value (bytes : List UInt8) : leBytes bytes.length (leValue bytes) = bytes := by
  induction bytes with
  | nil => rfl
  | cons byte bytes ih =>
      have hbyte : byte.toNat < 256 := byte.toNat_lt
      have hlow : (byte.toNat + 256 * leValue bytes) % 256 = byte.toNat := by omega
      have hhigh : (byte.toNat + 256 * leValue bytes) / 256 = leValue bytes := by omega
      rw [length_cons, leBytes, leValue, hlow, hhigh, ih, UInt8.ofNat_toNat]

theorem exact_unsigned (count : Nat) :
    Exact (readUnsigned count) (· < 256 ^ count) (leBytes count) := by
  intro bytes value rest
  rw [read_unsigned_ok]
  constructor
  · rintro ⟨hlength, rfl, rfl⟩
    have htake : (bytes.take count).length = count := length_take_of_le hlength
    refine ⟨?_, ?_⟩
    · have hlt := le_value_lt (bytes.take count)
      rwa [htake] at hlt
    · have hwrite := le_bytes_le_value (bytes.take count)
      rw [htake] at hwrite
      rw [hwrite, take_append_drop]
  · rintro ⟨hlt, rfl⟩
    rw [length_append, length_le_bytes]
    refine ⟨by omega, ?_, drop_left' (length_le_bytes count value)⟩
    rw [take_left' (length_le_bytes count value), le_value_le_bytes, Nat.mod_eq_of_lt hlt]

theorem exact_span (count : Nat) : Exact (readSpan count) (·.length = count) id := by
  intro bytes front rest
  rw [read_span_ok]
  constructor
  · rintro ⟨hlength, rfl, rfl⟩
    exact ⟨length_take_of_le hlength, (take_append_drop count bytes).symm⟩
  · rintro ⟨hlength, rfl⟩
    rw [length_append]
    exact ⟨by simp [← hlength], take_left' hlength, drop_left' hlength⟩

theorem reader_map_ok {f : α → β} {bytes rest : List UInt8} {b : β} :
    (f <$> reader) bytes = .ok (b, rest) ↔ ∃ a, reader bytes = .ok (a, rest) ∧ f a = b := by
  show (reader bytes >>= fun result => pure (f result.1, result.2)) = _ ↔ _
  cases reader bytes with
  | error e => simp [bind, Except.bind]
  | ok result =>
      obtain ⟨a, left⟩ := result
      simp only [bind, Except.bind, pure, Except.pure, Except.ok.injEq, Prod.mk.injEq]
      constructor
      · rintro ⟨rfl, rfl⟩
        exact ⟨a, ⟨rfl, rfl⟩, rfl⟩
      · rintro ⟨a', ⟨rfl, rfl⟩, rfl⟩
        exact ⟨rfl, rfl⟩

theorem exact_map (h : Exact reader admits write) {f : α → β} {g : β → α}
    (hfg : ∀ b, admits (g b) → f (g b) = b) (hgf : ∀ a, admits a → g (f a) = a) :
    Exact (f <$> reader) (fun b => admits (g b)) (fun b => write (g b)) := by
  intro bytes b rest
  rw [reader_map_ok]
  constructor
  · rintro ⟨a, hread, rfl⟩
    obtain ⟨hadmits, hbytes⟩ := (h _ _ _).1 hread
    show admits (g (f a)) ∧ bytes = write (g (f a)) ++ rest
    rw [hgf a hadmits]
    exact ⟨hadmits, hbytes⟩
  · rintro ⟨hadmits, hbytes⟩
    exact ⟨g b, (h _ _ _).2 ⟨hadmits, hbytes⟩, hfg b hadmits⟩

/-- What is left after a loop of exact rounds. -/
theorem read_times_iff (h : Exact reader admits write) (index count : Nat) (bytes : List UInt8)
    (values : List α) (rest : List UInt8) :
    readTimes (fun _ => reader) index count bytes = .ok (values, rest) ↔
      values.length = count ∧ (∀ value ∈ values, admits value) ∧
        bytes = values.flatMap write ++ rest := by
  induction count generalizing index bytes values with
  | zero =>
      rw [readTimes, reader_pure_ok, Prod.mk.injEq]
      constructor
      · rintro ⟨rfl, rfl⟩
        exact ⟨rfl, nofun, rfl⟩
      · rintro ⟨hlength, -, hbytes⟩
        obtain rfl := length_eq_zero_iff.1 hlength
        exact ⟨rfl, hbytes⟩
  | succ count ih =>
      simp only [readTimes, reader_bind_ok, reader_pure_ok, Prod.mk.injEq]
      constructor
      · rintro ⟨value, _, hvalue, later, _, hlater, rfl, rfl⟩
        obtain ⟨hadmits, rfl⟩ := (h _ _ _).1 hvalue
        obtain ⟨hlength, hall, rfl⟩ := (ih _ _ _).1 hlater
        exact ⟨by rw [length_cons, hlength], forall_mem_cons.2 ⟨hadmits, hall⟩,
          by rw [flatMap_cons, append_assoc]⟩
      · rintro ⟨hlength, hall, rfl⟩
        cases values with
        | nil => cases hlength
        | cons value later =>
            obtain ⟨hadmits, hall⟩ := forall_mem_cons.1 hall
            refine ⟨value, _, (h _ _ _).2 ⟨hadmits, ?_⟩, later, rest,
              (ih _ _ _).2 ⟨Nat.succ.inj hlength, hall, rfl⟩, rfl, rfl⟩
            rw [flatMap_cons, append_assoc]

theorem exact_times (h : Exact reader admits write) (index count : Nat) :
    Exact (readTimes (fun _ => reader) index count)
      (fun values => values.length = count ∧ ∀ value ∈ values, admits value)
      (·.flatMap write) :=
  fun _ _ _ => (read_times_iff h _ _ _ _ _).trans and_assoc.symm

theorem remaining_iff {bytes rest : List UInt8} {left : Nat} :
    remaining bytes = .ok (left, rest) ↔ bytes.length = left ∧ bytes = rest := by
  simp [remaining]

end Akasha.Lib

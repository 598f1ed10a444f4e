import Akasha.Lib.ExactReader
import Akasha.Lib.Exec
import Akasha.Storage.Wal
import Akasha.Storage.WalBuffer

/-!
# Reading the dense log envelope by envelope

`WalReader` decodes the log through a bounded buffer: it fills the buffer with the next header,
then with the whole envelope, and consumes what it decoded. `preflightWal` runs it to the end.
The main theorem, `wal_reader_eq_decoder`, compares this with `decodeWalBytes` on the whole file:
however reads cut the file, both give the same records and stop at the same byte, or both raise.

`decodeRound` is one round of the decoder's loop, and `read_next_round` says that a call of
`readNext` does the same to the bytes that are left.
-/

namespace Akasha.Storage

open Lib
open Lib.Exec (wp)

/-- `WalReader`. The length of the file is the one of the source its buffer captured. -/
structure WalReader where
  input : WalReadBuffer
  dimension : Nat
  previousSequence : UInt64
  done : Bool
  failed : Bool
  validLength : Nat

namespace WalReader

/-- `WalReader.__init__`: the content of the file, if there is one. -/
def start (source : Option (List UInt8)) (dimension : Nat) : Except String WalReader :=
  match source with
  | none => pure ⟨.start [], dimension, 0, true, false, 0⟩
  | some bytes => do
      validateDimension dimension
      pure ⟨.start bytes, dimension, 0, false, false, 0⟩

/-- An operation of the buffer. -/
def onInput (change : WalReader → Except String WalReadBuffer) : Exec WalReader String Unit :=
  fun reader =>
    match change reader with
    | .ok input => (.ok (), { reader with input := input })
    | .error message => (.error message, reader)

/-- `_input.ensure_available` behind the accepted bytes. -/
def ensureAvailable (chunk : Nat → Nat) (count : Nat) : Exec WalReader String Unit :=
  onInput fun reader => reader.input.ensureAvailable chunk count reader.validLength

/-- `_input.consume`. -/
def consume (count : Nat) : Exec WalReader String Unit :=
  onInput fun reader => reader.input.consume count

/-- `read_next`: the mutations of the next envelope, or none at the end. The reader counts as
failed from its first read of the file until it accepted the envelope. -/
def readNext (chunk : Nat → Nat) : Exec WalReader String (List WalRecord) := do
  let reader ← .read
  .ensure (reader.failed = false) "cannot resume a failed WAL reader"
  let remaining := reader.input.source.length - reader.validLength
  if reader.done ∨ remaining < walHeaderSize then do
    .update fun reader => { reader with done := true }
    pure []
  else do
    .update fun reader => { reader with failed := true }
    ensureAvailable chunk walHeaderSize
    let headed ← .read
    let recordSize ← .lift (envelopeSize headed.input.view headed.dimension)
    if remaining < recordSize then do
      .update fun reader => { reader with done := true, failed := false }
      pure []
    else do
      ensureAvailable chunk recordSize
      let filled ← .read
      let records ← .lift (decodeEnvelope (filled.input.view.take recordSize) filled.dimension
        filled.previousSequence)
      .update fun reader => { reader with
        previousSequence := (records.getLast?.map (·.sequence)).getD reader.previousSequence }
      consume recordSize
      .update fun reader => { reader with
        validLength := reader.validLength + recordSize, failed := false }
      pure records

/-- The loop of `preflight_wal`: the records until `read_next` returns none. There is no result
where the rounds do not suffice. -/
def preflightWal (chunk : Nat → Nat) : Nat → Exec WalReader String (Option (List WalRecord))
  | 0 => pure none
  | rounds + 1 => do
      let batch ← readNext chunk
      if batch = [] then pure (some [])
      else do
        let rest ← preflightWal chunk rounds
        pure (rest.map (batch ++ ·))

/-- The reader after this many calls of `read_next`, whatever they returned. -/
def afterCalls (chunk : Nat → Nat) : Nat → WalReader → WalReader
  | 0, reader => reader
  | calls + 1, reader => afterCalls chunk calls (readNext chunk reader).2

end WalReader

/-! ## The decoder in rounds -/

/-- One round of the loop of `decode_wal_bytes`: the records of an envelope and its size. -/
def decodeRound (dimension : Nat) (previous : UInt64) (bytes : List UInt8) :
    Except String (Option (List WalRecord × Nat)) :=
  if bytes.length < walHeaderSize then pure none
  else do
    let size ← envelopeSize bytes dimension
    if bytes.length < size then pure none
    else do
      let records ← decodeEnvelope (bytes.take size) dimension previous
      pure (some (records, size))

variable {records : List WalRecord}

section

variable {dimension : Nat} {previous : UInt64} {bytes : List UInt8}

theorem decode_round_some {size : Nat}
    (h : decodeRound dimension previous bytes = .ok (some (records, size))) :
    walHeaderSize ≤ bytes.length ∧ envelopeSize bytes dimension = .ok size ∧
      minRecordSize ≤ size ∧ size ≤ bytes.length ∧
      decodeEnvelope (bytes.take size) dimension previous = .ok records := by
  unfold decodeRound at h
  split at h
  · simp [pure, Except.pure] at h
  · next hheader =>
      obtain ⟨found, hsize, h⟩ := bind_ok.1 h
      split at h
      · simp [pure, Except.pure] at h
      · next hlength =>
          obtain ⟨decoded, hdecoded, h⟩ := bind_ok.1 h
          simp only [pure_ok, Option.some.injEq, Prod.mk.injEq] at h
          obtain ⟨rfl, rfl⟩ := h
          exact ⟨Nat.le_of_not_lt hheader, hsize, envelope_size_ok hsize,
            Nat.le_of_not_lt hlength, hdecoded⟩

/-- How many bytes the loop of `decode_wal_bytes` consumed when it ended. -/
def decodedLength (dimension : Nat) (previous : UInt64) (bytes : List UInt8) : Nat :=
  match _hround : decodeRound dimension previous bytes with
  | .ok (some (records, size)) =>
      size + decodedLength dimension ((records.getLast?.map (·.sequence)).getD previous)
        (bytes.drop size)
  | _ => 0
termination_by bytes.length
decreasing_by
  obtain ⟨-, -, hmin, hlength, -⟩ := decode_round_some _hround
  simp only [minRecordSize, List.length_drop] at *
  omega

/-- The decoder ends in a round without an envelope. -/
theorem decode_wal_none (h : decodeRound dimension previous bytes = .ok none) :
    decodeWalFrom dimension previous bytes = .ok [] ∧
      decodedLength dimension previous bytes = 0 := by
  constructor
  · unfold decodeRound at h
    split at h
    · next hshort => exact decode_wal_short hshort
    · next hheader =>
        obtain ⟨size, hsize, h⟩ := bind_ok.1 h
        split at h
        · next htorn => exact decode_wal_torn (Nat.le_of_not_lt hheader) hsize htorn
        · obtain ⟨records, -, h⟩ := bind_ok.1 h
          simp [pure_ok] at h
  · rw [decodedLength]
    split
    · next heq =>
        rw [h] at heq
        cases heq
    · rfl

/-- The decoder raises what a round raises. -/
theorem decode_wal_error {message : String}
    (h : decodeRound dimension previous bytes = .error message) :
    decodeWalFrom dimension previous bytes = .error message := by
  unfold decodeRound at h
  rw [decodeWalFrom]
  split at h
  · simp [pure, Except.pure] at h
  · next hheader =>
      rw [if_neg hheader]
      split
      · next raised heq =>
          rw [heq] at h
          simpa [bind, Except.bind, throw, throwThe, MonadExceptOf.throw] using h
      · next size heq =>
          rw [heq] at h
          simp only [bind, Except.bind] at h ⊢
          split at h
          · simp [pure, Except.pure] at h
          · next hlength =>
              rw [if_neg hlength]
              cases hdecode : decodeEnvelope (bytes.take size) dimension previous with
              | error raised => simpa [hdecode] using h
              | ok records => simp [hdecode, pure, Except.pure] at h

/-- The decoder goes on behind an envelope. -/
theorem decode_wal_some {size : Nat}
    (h : decodeRound dimension previous bytes = .ok (some (records, size))) :
    decodeWalFrom dimension previous bytes =
        (decodeWalFrom dimension ((records.getLast?.map (·.sequence)).getD previous)
          (bytes.drop size)).map (records ++ ·) ∧
      decodedLength dimension previous bytes = size +
        decodedLength dimension ((records.getLast?.map (·.sequence)).getD previous)
          (bytes.drop size) := by
  obtain ⟨hheader, hsize, hmin, hlength, hdecode⟩ := decode_round_some h
  constructor
  · rw [decodeWalFrom, if_neg (by omega)]
    split
    · next message heq =>
        rw [hsize] at heq
        cases heq
    · next found heq =>
        rw [hsize] at heq
        cases heq
        rw [if_neg (by omega), hdecode]
        rfl
  · nth_rewrite 1 [decodedLength]
    split
    · next decoded found heq =>
        rw [h] at heq
        cases heq
        rfl
    · next hother => exact absurd h (hother records size)

end

/-- An envelope has at least one mutation. -/
theorem decode_envelope_ne_nil {dimension : Nat} {previous : UInt64} {bytes : List UInt8}
    (h : decodeEnvelope bytes dimension previous = .ok records) :
    records ≠ [] := by
  unfold decodeEnvelope at h
  split at h
  · simp only [bind_ok, exists_unit, decodeBatch, Prod.exists, pure_ok] at h
    obtain ⟨-, -, found, rest, hread, -, rfl⟩ := h
    unfold readBatch at hread
    simp only [reader_bind_ok, check_ok, reader_pure_ok] at hread
    obtain ⟨magic, _, -, _, _, -, version, _, -, operation, _, -, _, _, -, flags, _, -, _, _, -,
      recordSize, _, -, _, _, -, first, _, -, count, _, -, _, _, ⟨hcount, -⟩, hread⟩ := hread
    obtain ⟨dimension', _, -, _, _, -, reserved, _, -, _, _, -, _, _, -, _, _, -, values, _,
      hvalues, _, _, -, hresult⟩ := hread
    obtain ⟨rfl, -⟩ := Prod.mk.inj hresult
    have hlength := read_times_length hvalues
    rintro rfl
    exact hcount.1 hlength.symm
  · simp only [bind_ok, exists_unit, pure_ok] at h
    obtain ⟨record, -, -, rfl⟩ := h
    exact List.cons_ne_nil _ _

namespace WalReader

/-- The reader has accepted what stands before these bytes of its file. -/
structure Ready (reader : WalReader) (left : List UInt8) : Prop where
  failed : reader.failed = false
  done : reader.done = false
  holds : reader.input.Holds reader.validLength
  left_eq : reader.input.source.drop reader.validLength = left
  length_le : reader.validLength ≤ reader.input.source.length

section

variable {reader : WalReader} {left : List UInt8} (chunk : Nat → Nat)

theorem Ready.length_eq (h : reader.Ready left) :
    reader.input.source.length - reader.validLength = left.length := by
  rw [← h.left_eq, List.length_drop]

variable {E : String → WalReader → Prop} {Q : Unit → WalReader → Prop}

theorem wp_on_input {change : WalReader → Except String WalReadBuffer} :
    wp (onInput change) Q E reader ↔
      (∀ input, change reader = .ok input → Q () { reader with input := input }) ∧
        ∀ message, change reader = .error message → E message reader := by
  unfold wp onInput
  cases hchange : change reader with
  | ok input => simp
  | error message => simp

theorem wp_ensure_available {count : Nat} (hholds : reader.input.Holds reader.validLength)
    (hcount : reader.validLength + count ≤ reader.input.source.length)
    (hok : ∀ input : WalReadBuffer, input.Holds reader.validLength →
      input.source = reader.input.source →
      input.view.take count = (reader.input.source.drop reader.validLength).take count →
      Q () { reader with input := input }) :
    wp (ensureAvailable chunk count) Q E reader := by
  obtain ⟨filled, hensure, hfilled, hsource, hview⟩ :=
    WalReadBuffer.ensure_available_ok chunk count hholds hcount
  rw [ensureAvailable, wp_on_input, hensure]
  refine ⟨fun input heq => ?_, nofun⟩
  cases heq
  exact hok filled hfilled hsource hview

theorem wp_consume {count accepted : Nat} (hholds : reader.input.Holds accepted)
    (hcount : count ≤ reader.input.view.length)
    (hok : ∀ input : WalReadBuffer, input.Holds (accepted + count) →
      input.source = reader.input.source → Q () { reader with input := input }) :
    wp (consume count) Q E reader := by
  obtain ⟨rest, hconsume, hrest, hsource⟩ := WalReadBuffer.consume_ok hholds hcount
  rw [consume, wp_on_input, hconsume]
  refine ⟨fun input heq => ?_, nofun⟩
  cases heq
  exact hok rest hrest hsource

/-- What a call of `read_next` does that follows a round of the decoder. -/
def Follows (reader : WalReader) (left : List UInt8) (records : List WalRecord)
    (next : WalReader) : Prop :=
  match decodeRound reader.dimension reader.previousSequence left with
  | .error _ => False
  | .ok none => records = [] ∧ next.validLength = reader.validLength
  | .ok (some (decoded, size)) => records = decoded ∧ next.Ready (left.drop size) ∧
      next.validLength = reader.validLength + size ∧ next.dimension = reader.dimension ∧
      next.previousSequence = (decoded.getLast?.map (·.sequence)).getD reader.previousSequence

/-- A call of `read_next` is a round of the decoder on the bytes that are left. -/
theorem read_next_round (h : reader.Ready left) :
    wp (readNext chunk) (reader.Follows left)
      (fun message next => decodeRound reader.dimension reader.previousSequence left =
        .error message ∧ next.failed = true) reader := by
  have hlength := h.length_eq
  have hbound := h.length_le
  unfold readNext
  simp only [Exec.wp_bind, Exec.wp_read, Exec.wp_ensure, Exec.wp_ite, Exec.wp_update,
    Exec.wp_pure, hlength]
  refine ⟨fun _ => ⟨fun hend => ?_, fun hgo => ?_⟩, fun hfailed => absurd h.failed hfailed⟩
  · -- less than a header is left
    have hshort : left.length < walHeaderSize := hend.resolve_left (by simp [h.done])
    have hround : decodeRound reader.dimension reader.previousSequence left = .ok none := by
      rw [decodeRound, if_pos hshort]
      rfl
    show Follows _ _ _ _
    rw [Follows, hround]
    exact ⟨rfl, rfl⟩
  · have hheader : walHeaderSize ≤ left.length := Nat.le_of_not_lt fun hshort => hgo (.inr hshort)
    have hroom : reader.validLength + walHeaderSize ≤ reader.input.source.length := by omega
    refine wp_ensure_available chunk h.holds hroom fun headed hheaded hsource hview => ?_
    have hsize : envelopeSize headed.view reader.dimension =
        envelopeSize left reader.dimension := by
      rw [← envelope_size_take (n := walHeaderSize) (by decide), hview, h.left_eq,
        envelope_size_take (by decide)]
    rw [Exec.wp_lift]
    show (∀ size, envelopeSize headed.view reader.dimension = .ok size → _) ∧
      (∀ message, envelopeSize headed.view reader.dimension = .error message → _)
    rw [hsize]
    refine ⟨fun size hfound => ⟨fun htorn => ?_, fun hwhole => ?_⟩, fun message hraised => ?_⟩
    · -- the envelope is torn
      have hround : decodeRound reader.dimension reader.previousSequence left = .ok none := by
        rw [decodeRound, if_neg (by omega), hfound]
        exact if_pos htorn
      rw [Follows, hround]
      exact ⟨rfl, rfl⟩
    · have hfits : size ≤ left.length := Nat.le_of_not_lt hwhole
      have hrest : reader.validLength + size ≤ headed.source.length := by
        rw [hsource]
        show reader.validLength + size ≤ reader.input.source.length
        omega
      refine wp_ensure_available chunk hheaded hrest fun filled hfilled hsame hbytes => ?_
      have henvelope : filled.view.take size = left.take size := by
        rw [hbytes, hsource, h.left_eq]
      have hdecodes : decodeRound reader.dimension reader.previousSequence left =
          (decodeEnvelope (left.take size) reader.dimension reader.previousSequence).map
            fun records => some (records, size) := by
        rw [decodeRound, if_neg (by omega), hfound]
        exact if_neg hwhole
      rw [Exec.wp_lift]
      show (∀ records, decodeEnvelope (filled.view.take size) reader.dimension
        reader.previousSequence = .ok records → _) ∧ (∀ message, decodeEnvelope
        (filled.view.take size) reader.dimension reader.previousSequence = .error message → _)
      rw [henvelope]
      refine ⟨fun records hrecords => ?_, fun message hraised => ?_⟩
      · have hroom : size ≤ filled.view.length := by
          have heq := congrArg List.length henvelope
          rw [List.length_take, List.length_take] at heq
          omega
        refine wp_consume hfilled hroom fun rest hrest hkept => ?_
        have hkeptSource : rest.source = reader.input.source := by rw [hkept, hsame, hsource]
        rw [Follows, hdecodes, hrecords]
        refine ⟨rfl, ⟨rfl, h.done, hrest, ?_, ?_⟩, rfl, rfl, rfl⟩
        · show rest.source.drop (reader.validLength + size) = left.drop size
          rw [hkeptSource, ← List.drop_drop, h.left_eq]
        · show reader.validLength + size ≤ rest.source.length
          rw [hkeptSource]
          omega
      · rw [hdecodes, hraised]
        exact ⟨rfl, rfl⟩
    · refine ⟨?_, rfl⟩
      rw [decodeRound, if_neg (by omega), hraised]
      rfl

/-- Calls until none is returned: the records of the decoder, up to the byte where it stops. -/
theorem preflight_follows {rounds : Nat} (h : reader.Ready left) (hrounds : left.length < rounds) :
    wp (preflightWal chunk rounds)
      (fun found next =>
        decodeWalFrom reader.dimension reader.previousSequence left = found.elim (.error "") .ok ∧
        found.isSome ∧ next.validLength = reader.validLength +
          decodedLength reader.dimension reader.previousSequence left)
      (fun message next =>
        decodeWalFrom reader.dimension reader.previousSequence left = .error message ∧
        next.failed = true) reader := by
  induction rounds generalizing reader left with
  | zero => omega
  | succ rounds ih =>
      rw [preflightWal, Exec.wp_bind]
      refine Exec.wp_mono (read_next_round chunk h) (fun batch next hnext => ?_)
        fun message next hraised => ⟨decode_wal_error hraised.1, hraised.2⟩
      unfold Follows at hnext
      split at hnext
      · exact hnext.elim
      · next hround =>
          obtain ⟨rfl, hvalid⟩ := hnext
          obtain ⟨hrecords, hlength⟩ := decode_wal_none hround
          rw [if_pos rfl, Exec.wp_pure, hlength]
          exact ⟨hrecords, rfl, hvalid⟩
      · next decoded size hround =>
          obtain ⟨rfl, hready, hvalid, hdimension, hprevious⟩ := hnext
          obtain ⟨-, -, hmin, hfits, hdecode⟩ := decode_round_some hround
          obtain ⟨hrecords, hlength⟩ := decode_wal_some hround
          rw [if_neg (decode_envelope_ne_nil hdecode), Exec.wp_bind]
          have hless : (left.drop size).length < rounds := by
            rw [List.length_drop]
            simp only [minRecordSize] at hmin
            omega
          refine Exec.wp_mono (ih hready hless) (fun rest last hrest => ?_)
            fun message last hraised => ?_
          · rw [hdimension, hprevious] at hrest
            obtain ⟨hdecoded, hsome, hstop⟩ := hrest
            obtain ⟨rest, rfl⟩ := Option.isSome_iff_exists.1 hsome
            rw [Exec.wp_pure, hrecords, hdecoded, hstop, hlength, hvalid, Nat.add_assoc]
            exact ⟨rfl, rfl, rfl⟩
          · rw [hdimension, hprevious] at hraised
            rw [hrecords, hraised.1]
            exact ⟨rfl, hraised.2⟩

theorem failed_of_raised {message : String} (h : (readNext chunk reader).1 = .error message) :
    (readNext chunk reader).2.failed = true := by
  have hcall : wp (readNext chunk) (fun _ _ => True) (fun _ next => next.failed = true) reader := by
    unfold readNext ensureAvailable consume
    simp only [Exec.wp_bind, Exec.wp_read, Exec.wp_ensure, Exec.wp_ite, Exec.wp_update,
      Exec.wp_pure, Exec.wp_lift, wp_on_input, implies_true, true_and, and_true]
    exact Bool.eq_true_of_not_eq_false
  have heq : readNext chunk reader = (.error message, (readNext chunk reader).2) := Prod.ext h rfl
  have hfailed := Exec.wp_error hcall heq
  exact hfailed

theorem read_next_failed (h : reader.failed = true) :
    readNext chunk reader = (.error "cannot resume a failed WAL reader", reader) := by
  unfold readNext
  rw [Exec.read_bind]
  exact Exec.bind_of_error (Exec.ensure_of_not (by simp [h]) _ _)

theorem after_calls_add (first second : Nat) (reader : WalReader) :
    afterCalls chunk (first + second) reader =
      afterCalls chunk second (afterCalls chunk first reader) := by
  induction first generalizing reader with
  | zero => rw [Nat.zero_add, afterCalls]
  | succ first ih =>
      rw [Nat.succ_add, afterCalls, ih]
      rfl

theorem after_calls_failed (h : reader.failed = true) (calls : Nat) :
    afterCalls chunk calls reader = reader := by
  induction calls with
  | zero => rfl
  | succ calls ih => rw [afterCalls, read_next_failed chunk h, ih]

end

end WalReader

/-- The records and the length of what `decode_wal_bytes` accepts. -/
def decodedWal (bytes : List UInt8) (dimension : Nat) : Except String (List WalRecord × Nat) :=
  (decodeWalBytes bytes dimension).map (·, decodedLength dimension 0 bytes)

/-- The streaming reader equals the whole-file decoder: however reads cut the file, the reader
returns the same records and accepts the same bytes, or raises the same error, and after an
error of any call no later call returns. -/
theorem wal_reader_eq_decoder (chunk : Nat → Nat) (bytes : List UInt8) {dimension : Nat}
    (hpositive : 0 < dimension) (hdimension : dimension < 2 ^ 32) :
    ∃ reader, WalReader.start (some bytes) dimension = .ok reader ∧
      (∀ rounds, bytes.length < rounds → ∃ last,
        match decodedWal bytes dimension with
        | .ok (records, consumed) =>
            WalReader.preflightWal chunk rounds reader = (.ok (some records), last) ∧
              last.validLength = consumed
        | .error message => WalReader.preflightWal chunk rounds reader = (.error message, last)) ∧
      ∀ calls message,
        (WalReader.readNext chunk (WalReader.afterCalls chunk calls reader)).1 = .error message →
        ∀ later, calls < later → ∃ again,
          (WalReader.readNext chunk (WalReader.afterCalls chunk later reader)).1 = .error again := by
  have hstart : WalReader.start (some bytes) dimension =
      .ok ⟨.start bytes, dimension, 0, false, false, 0⟩ := by
    simp only [WalReader.start, validateDimension, bind_ok, require_ok, exists_unit,
      pure_ok]
    exact ⟨⟨hpositive, hdimension⟩, trivial⟩
  have hdecode : decodeWalBytes bytes dimension = decodeWalFrom dimension 0 bytes := by
    rw [decodeWalBytes, validateDimension, require, if_pos ⟨hpositive, hdimension⟩]
    rfl
  refine ⟨_, hstart, fun rounds hrounds => ?_, fun calls message hraised later hlater => ?_⟩
  · have hready : WalReader.Ready ⟨.start bytes, dimension, 0, false, false, 0⟩ bytes :=
      ⟨rfl, rfl, WalReadBuffer.start_holds bytes, rfl, Nat.zero_le _⟩
    have hrun := WalReader.preflight_follows chunk hready hrounds
    unfold wp at hrun
    rw [decodedWal, hdecode]
    split at hrun
    · next found last heq =>
        obtain ⟨hrecords, hsome, hlength⟩ := hrun
        obtain ⟨records, rfl⟩ := Option.isSome_iff_exists.1 hsome
        refine ⟨last, ?_⟩
        rw [hrecords]
        exact ⟨heq, hlength.trans (Nat.zero_add _)⟩
    · next message last heq =>
        refine ⟨last, ?_⟩
        rw [hrun.1]
        exact heq
  · -- the reader that raised is a failed one, and stays so
    obtain ⟨more, rfl⟩ := Nat.exists_eq_add_of_lt hlater
    refine ⟨"cannot resume a failed WAL reader", ?_⟩
    rw [Nat.add_assoc, Nat.add_comm more 1, WalReader.after_calls_add, WalReader.after_calls_add,
      WalReader.afterCalls, WalReader.afterCalls]
    have hfailed := WalReader.failed_of_raised chunk hraised
    rw [WalReader.after_calls_failed chunk hfailed, WalReader.read_next_failed chunk hfailed]

/-- A file that ends in its second envelope, where every read returns one byte. -/
theorem wal_reader_eq_decoder_torn :
    ∃ reader, WalReader.start (some ((sampleLog.flatMap (·.2)).take 60)) 1 = .ok reader ∧
      ∃ last, WalReader.preflightWal (fun _ => 1) 61 reader = (.ok (some [.delete 1 7]), last) ∧
        last.validLength = 40 := by
  obtain ⟨reader, hstart, hrun, -⟩ := @wal_reader_eq_decoder (fun _ => 1)
    ((sampleLog.flatMap (·.2)).take 60) 1 (by decide) (by decide)
  obtain ⟨last, hlast⟩ := hrun 61 (by decide +kernel)
  have hfirst : decodeRound 1 0 ((sampleLog.flatMap (·.2)).take 60) =
      .ok (some ([.delete 1 7], 40)) := by decide +kernel
  have hsecond : decodeRound 1 1 (((sampleLog.flatMap (·.2)).take 60).drop 40) = .ok none := by
    decide +kernel
  obtain ⟨hrecords, hlength⟩ := decode_wal_some hfirst
  obtain ⟨hnone, hzero⟩ := decode_wal_none hsecond
  have hdecoded : decodedWal ((sampleLog.flatMap (·.2)).take 60) 1 = .ok ([.delete 1 7], 40) := by
    rw [decodedWal, decodeWalBytes, hlength]
    show (decodeWalFrom 1 0 _).map _ = _
    rw [hrecords]
    show ((decodeWalFrom 1 1 _).map _).map _ = _
    rw [hnone]
    show Except.ok ([WalRecord.delete 1 7], 40 + decodedLength 1 1 _) = _
    rw [hzero]
  rw [hdecoded] at hlast
  exact ⟨reader, hstart, last, hlast⟩

end Akasha.Storage

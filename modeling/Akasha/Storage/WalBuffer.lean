import Akasha.Lib.Except
import Mathlib.Data.List.TakeDrop

/-!
# Reading a log through a buffer

`WalReadBuffer` holds a stretch of the log file behind the bytes that were accepted. A read of
the file may return any part of what was asked for; how much is left to the function `chunk`.
Whatever it returns, the bytes that become available are the next ones of the file.
-/

namespace Akasha.Storage

open Lib

/-- `WalReadBuffer`. The file is its content when it was opened, and `position` where the next
read starts. -/
structure WalReadBuffer where
  source : List UInt8
  position : Nat
  bytes : List UInt8
  offset : Nat

/-- The most that is read ahead. -/
def readAheadBytes : Nat := 64 * 1024

namespace WalReadBuffer

/-- A buffer over a file. -/
def start (source : List UInt8) : WalReadBuffer := ⟨source, 0, [], 0⟩

/-- `bytes`: what was read and not consumed. -/
def view (buffer : WalReadBuffer) : List UInt8 :=
  buffer.bytes.drop buffer.offset

/-- `consume`. -/
def consume (buffer : WalReadBuffer) (count : Nat) : Except String WalReadBuffer := do
  require (count ≤ buffer.bytes.length - buffer.offset) "invalid WAL buffer consumption"
  pure { buffer with offset := buffer.offset + count }

/-- The read loop of `ensure_available`: what it receives until it has what it needs. -/
def receive (chunk : Nat → Nat) (source : List UInt8) (need position : Nat) :
    Except String (List UInt8) :=
  if need = 0 then pure []
  else
    let received := min (max 1 (chunk position)) (min need (source.length - position))
    if received = 0 then throw "WAL changed during preflight"
    else do
      let rest ← receive chunk source (need - received) (position + received)
      pure ((source.drop position).take received ++ rest)
termination_by need
decreasing_by omega

/-- `ensure_available`. -/
def ensureAvailable (chunk : Nat → Nat) (buffer : WalReadBuffer) (count accepted : Nat) :
    Except String WalReadBuffer := do
  require (accepted ≤ buffer.source.length) "invalid accepted WAL length"
  let left := buffer.source.length - accepted
  require (count ≤ left) "WAL read exceeds captured file length"
  let retained := buffer.bytes.length - buffer.offset
  if count ≤ retained then pure buffer
  else do
    let target := min left (max readAheadBytes count)
    let received ← receive chunk buffer.source (target - retained) buffer.position
    pure ⟨buffer.source, buffer.position + received.length, buffer.view ++ received, 0⟩

/-- The buffer holds a stretch of the file right behind the accepted bytes. -/
structure Holds (buffer : WalReadBuffer) (accepted : Nat) : Prop where
  offset_le : buffer.offset ≤ buffer.bytes.length
  position_eq : buffer.position = accepted + buffer.view.length
  position_le : buffer.position ≤ buffer.source.length
  view_eq : buffer.view = (buffer.source.drop accepted).take buffer.view.length

theorem start_holds (source : List UInt8) : (start source).Holds 0 :=
  ⟨Nat.le_refl _, rfl, Nat.zero_le _, by simp [start, view]⟩

/-- The read loop receives the next bytes of the file. -/
theorem receive_ok (chunk : Nat → Nat) {source : List UInt8} {need position : Nat}
    (h : position + need ≤ source.length) :
    receive chunk source need position = .ok ((source.drop position).take need) := by
  induction need using Nat.strongRecOn generalizing position with
  | ind need ih =>
      rw [receive]
      by_cases hneed : need = 0
      · simp [hneed, pure, Except.pure]
      · rw [if_neg hneed]
        generalize hreceived : min (max 1 (chunk position)) (min need (source.length - position)) =
          received
        have hpos : received ≠ 0 := by omega
        have hle : received ≤ need := by omega
        simp only [if_neg hpos]
        rw [ih (need - received) (by omega) (by omega)]
        show Except.ok _ = Except.ok _
        rw [← List.drop_drop, ← List.take_add]
        congr 2
        omega

/-- Bytes that the file still has become available. -/
theorem ensure_available_ok (chunk : Nat → Nat) (count : Nat) {buffer : WalReadBuffer}
    {accepted : Nat} (h : buffer.Holds accepted) (hcount : accepted + count ≤ buffer.source.length) :
    ∃ filled, buffer.ensureAvailable chunk count accepted = .ok filled ∧ filled.Holds accepted ∧
      filled.source = buffer.source ∧
      filled.view.take count = (buffer.source.drop accepted).take count := by
  have hlength : buffer.view.length = buffer.bytes.length - buffer.offset := List.length_drop
  simp only [ensureAvailable, bind_ok, require_ok, exists_unit]
  by_cases hretained : count ≤ buffer.bytes.length - buffer.offset
  · refine ⟨buffer, ⟨by omega, by omega, by rw [if_pos hretained]; rfl⟩, h, rfl, ?_⟩
    rw [h.view_eq, List.take_take, Nat.min_eq_left (by omega)]
  · have hposition := h.position_eq
    have hread := h.position_le
    generalize htarget : min (buffer.source.length - accepted) (max readAheadBytes count) = target
    have hroom : buffer.position + (target - (buffer.bytes.length - buffer.offset)) ≤
        buffer.source.length := by omega
    have hreceive := receive_ok chunk hroom
    generalize hneed : target - (buffer.bytes.length - buffer.offset) = need at hroom hreceive
    have hview : buffer.view ++ (buffer.source.drop buffer.position).take need =
        (buffer.source.drop accepted).take target := by
      rw [hposition, ← List.drop_drop]
      nth_rewrite 1 [h.view_eq]
      rw [← List.take_add]
      congr 1
      omega
    have htook : ((buffer.source.drop accepted).take target).length = target := by
      rw [List.length_take, List.length_drop]
      omega
    have hneedlength : ((buffer.source.drop buffer.position).take need).length = need := by
      rw [List.length_take, List.length_drop]
      omega
    refine ⟨⟨buffer.source, buffer.position + need,
      (buffer.source.drop accepted).take target, 0⟩, ⟨by omega, by omega, ?_⟩, ?_, rfl, ?_⟩
    · rw [if_neg hretained, hreceive]
      simp only [bind_ok, pure_ok]
      exact ⟨_, rfl, by rw [hneedlength, hview]⟩
    · refine ⟨Nat.zero_le _, ?_, hroom, ?_⟩
      · show buffer.position + need = accepted + ((buffer.source.drop accepted).take target).length
        rw [htook]
        omega
      · show (buffer.source.drop accepted).take target =
          (buffer.source.drop accepted).take ((buffer.source.drop accepted).take target).length
        rw [htook]
    · show ((buffer.source.drop accepted).take target).take count = _
      rw [List.take_take, Nat.min_eq_left (by omega)]

/-- What is consumed counts as accepted. -/
theorem consume_ok {buffer : WalReadBuffer} {accepted count : Nat} (h : buffer.Holds accepted)
    (hcount : count ≤ buffer.view.length) :
    ∃ rest, buffer.consume count = .ok rest ∧ rest.Holds (accepted + count) ∧
      rest.source = buffer.source := by
  have hlength : buffer.view.length = buffer.bytes.length - buffer.offset := List.length_drop
  have hoffset := h.offset_le
  have hdrop : buffer.bytes.drop (buffer.offset + count) = buffer.view.drop count := by
    rw [view, List.drop_drop]
  refine ⟨{ buffer with offset := buffer.offset + count }, ?_, ⟨?_, ?_, h.position_le, ?_⟩, rfl⟩
  · simp only [consume, bind_ok, require_ok, exists_unit, pure_ok]
    exact ⟨by omega, trivial⟩
  · show buffer.offset + count ≤ buffer.bytes.length
    omega
  · show buffer.position = accepted + count + (buffer.bytes.drop (buffer.offset + count)).length
    rw [hdrop, List.length_drop, h.position_eq]
    omega
  · show buffer.bytes.drop (buffer.offset + count) = (buffer.source.drop (accepted + count)).take
      (buffer.bytes.drop (buffer.offset + count)).length
    rw [hdrop, ← List.drop_drop, List.length_drop]
    nth_rewrite 1 [h.view_eq]
    rw [List.drop_take]

end WalReadBuffer

end Akasha.Storage

import Akasha.Distributed.JournalBytes

/-!
# Journal appends that fail

An append of `ReplicaJournal` may raise with any part of its line in the file, and the process goes
on with the maps as they were. Opening the file again cuts torn bytes only from its end, so a whole
line written behind them is lost with them: `retried_append_corrupts`. `failed_appends_reload` says
which runs survive: no whole line is written behind torn bytes, and none prepares an index for which
a call that raised has left a whole line with another checksum.
-/

namespace Akasha.Distributed

open Lib List

/-- A call whose append may raise: `failed` is how many bytes of its line are in the file then. -/
structure JournalStep where
  call : JournalCall
  failed : Option Nat

/-- A journal in use, with the records whose whole lines were written since it was opened. -/
structure JournalHistory where
  disk : JournalOnDisk
  written : List JournalRecord

section

variable [FloatRepr]

/-- The append of a step reaches the end of its line. -/
def JournalStep.WritesLine (step : JournalStep) (record : JournalRecord) : Prop :=
  ∀ count ∈ step.failed, (recordLine record).length ≤ count

instance (step : JournalStep) (record : JournalRecord) : Decidable (step.WritesLine record) :=
  inferInstanceAs (Decidable (∀ count ∈ step.failed, (recordLine record).length ≤ count))

/-- A step on the journal: the maps change only when the call returns. -/
def JournalStep.run (history : JournalHistory) (step : JournalStep) : JournalHistory :=
  match step.call.check history.disk.journal with
  | .error _ => history
  | .ok none => history
  | .ok (some record) =>
      let written := if step.WritesLine record then record :: history.written else history.written
      match step.failed with
      | none =>
          ⟨⟨history.disk.journal.record record, history.disk.file ++ recordLine record⟩, written⟩
      | some count =>
          ⟨⟨history.disk.journal, history.disk.file ++ (recordLine record).take count⟩, written⟩

/-- Steps one after another. -/
def runJournal (history : JournalHistory) : List JournalStep → JournalHistory
  | [] => history
  | step :: steps => runJournal (step.run history) steps

/-- No torn bytes stand before the line, and an earlier prepare that raised after its whole line
was written does not conflict with it. -/
def JournalStep.Meets (history : JournalHistory) (step : JournalStep) : Prop :=
  ∀ record, step.call.check history.disk.journal = .ok (some record) → step.WritesLine record →
    EndsLine history.disk.file ∧
      ∀ entry earlier, record = .prepare entry → .prepare earlier ∈ history.written →
        earlier.index = entry.index → earlier.mutationChecksum = entry.mutationChecksum

/-- Every step of a run meets the condition. -/
def StepsMeet (history : JournalHistory) : List JournalStep → Prop
  | [] => True
  | step :: steps => step.Meets history ∧ StepsMeet (step.run history) steps

end

/-- The loaded maps contain the effects of the calls that returned, which are what the maps in
memory hold. -/
structure ReplicaJournal.Contains (loaded journal : ReplicaJournal) : Prop where
  prepared : ∀ (index : Nat) (entry : ReplicatedEntry), journal.prepared[index]? = some entry →
    ∃ kept, loaded.prepared[index]? = some kept ∧ kept.canonical = entry.canonical
  committed : ∀ index ∈ journal.committed, index ∈ loaded.committed
  snapshotIndex : journal.snapshotIndex ≤ loaded.snapshotIndex

theorem torn_eq_nil {complete torn : List UInt8} (h : EndsLine (complete ++ torn))
    (htorn : ∀ byte ∈ torn, byte ≠ 10) : torn = [] := by
  rcases eq_nil_or_concat torn with rfl | ⟨front, byte, rfl⟩
  · rfl
  · rcases h with h | h
    · simp at h
    · exact absurd (by simpa using h) (htorn byte (by simp))

variable {record : JournalRecord}

theorem prepared_none_of_record {journal : ReplicaJournal} {index : Nat}
    (h : (journal.record record).prepared[index]? = none) : journal.prepared[index]? = none := by
  cases record with
  | prepare entry =>
      rw [ReplicaJournal.record, ReplicaJournal.add_prepared_get] at h
      split at h
      · cases h
      · exact h
  | commit other => simpa [ReplicaJournal.record] using h
  | snapshot other => exact h

section

variable [LawfulFloatText]

/-- Up to a torn end the file loads, to maps that contain those in memory; an entry that only the
file holds comes from a prepare that raised. -/
structure JournalHistory.Sound (history : JournalHistory) (complete torn : List UInt8)
    (loaded : ReplicaJournal) : Prop where
  file : history.disk.file = complete ++ torn
  ends : EndsLine complete
  torn_line : ∀ byte ∈ torn, byte ≠ 10
  opens : openJournal complete = .ok ⟨loaded, complete⟩
  contains : loaded.Contains history.disk.journal
  only_file : ∀ (index : Nat) (kept : ReplicatedEntry), loaded.prepared[index]? = some kept →
    history.disk.journal.prepared[index]? = none →
    ∃ earlier, .prepare earlier ∈ history.written ∧ earlier.index = index ∧
      earlier.mutationChecksum = kept.mutationChecksum

/-- What a step does to the journal. -/
theorem step_cases (history : JournalHistory) (step : JournalStep) :
    step.run history = history ∨
      ∃ record, step.call.check history.disk.journal = .ok (some record) ∧
        ((¬ step.WritesLine record ∧ ∃ count < (recordLine record).length,
            step.run history = ⟨⟨history.disk.journal,
              history.disk.file ++ (recordLine record).take count⟩, history.written⟩) ∨
          step.WritesLine record ∧ ∃ journal : ReplicaJournal,
            (journal = history.disk.journal ∨ journal = history.disk.journal.record record) ∧
            step.run history = ⟨⟨journal, history.disk.file ++ recordLine record⟩,
              record :: history.written⟩) := by
  unfold JournalStep.run
  cases hcheck : step.call.check history.disk.journal with
  | error e => exact .inl rfl
  | ok record =>
      cases record with
      | none => exact .inl rfl
      | some record =>
          refine .inr ⟨record, rfl, ?_⟩
          cases hfailed : step.failed with
          | none =>
              have hwrites : step.WritesLine record := by simp [JournalStep.WritesLine, hfailed]
              refine .inr ⟨hwrites, _, .inr rfl, ?_⟩
              simp [hwrites]
          | some count =>
              by_cases hwrites : step.WritesLine record
              · have hcount := hwrites count hfailed
                refine .inr ⟨hwrites, _, .inl rfl, ?_⟩
                simp [hwrites, take_of_length_le hcount]
              · have hcount : count < (recordLine record).length := by
                  simpa [JournalStep.WritesLine, hfailed] using hwrites
                exact .inl ⟨hwrites, count, hcount, by simp [hwrites]⟩

/-- Loading a line whose prepare conflicts with none before it. -/
theorem load_record_contains {call : JournalCall} {loaded journal : ReplicaJournal}
    (hcall : call.representable = true) (hcontains : loaded.Contains journal)
    (h : call.check journal = .ok (some record))
    (hagree : ∀ entry, record = .prepare entry → ∀ existing ∈ loaded.prepared[entry.index]?,
      existing.mutationChecksum = entry.mutationChecksum) :
    ∃ next : ReplicaJournal, loaded.loadRecord record.canonical = .ok next ∧
      next.Contains journal ∧ next.Contains (journal.record record) ∧
      ∀ (index : Nat) (kept : ReplicatedEntry), next.prepared[index]? = some kept →
        loaded.prepared[index]? = some kept ∨
          ∃ entry, record = .prepare entry ∧ entry.index = index ∧ kept = entry.canonical := by
  rcases check_some h with ⟨entry, rfl, rfl, hvalid, hnone⟩ | ⟨index, rfl, rfl, hprepared⟩ |
    ⟨index, rfl, rfl, hle⟩
  · have hentry : entry.asDict.representable = true := hcall
    have hmutation : entry.mutation.representable = true := representable_field hentry "mutation"
    have hget : ∀ index : Nat, (loaded.addPrepared entry.canonical).prepared[index]? =
        if entry.index = index then some entry.canonical else loaded.prepared[index]? :=
      fun index => ReplicaJournal.add_prepared_get loaded entry.canonical index
    have hkeeps : ∀ (index : Nat) (other : ReplicatedEntry), journal.prepared[index]? = some other →
        ∃ kept, (loaded.addPrepared entry.canonical).prepared[index]? = some kept ∧
          kept.canonical = other.canonical := by
      intro index other hother
      rw [hget, if_neg]
      · exact hcontains.prepared index other hother
      · rintro rfl
        rw [hnone] at hother
        cases hother
    refine ⟨loaded.addPrepared entry.canonical, ?_, ⟨hkeeps, hcontains.committed,
      hcontains.snapshotIndex⟩, ⟨?_, hcontains.committed, hcontains.snapshotIndex⟩, ?_⟩
    · refine ReplicaJournal.load_record_prepare_ok.2 ⟨?_, hagree entry rfl, rfl⟩
      rw [validate_canonical hmutation, hvalid]
    · intro index other hother
      rw [ReplicaJournal.record, ReplicaJournal.add_prepared_get] at hother
      split at hother
      · next heq =>
          cases hother
          exact ⟨entry.canonical, by rw [hget, if_pos heq], by simp⟩
      · exact hkeeps index other hother
    · intro index kept hkept
      rw [hget] at hkept
      split at hkept
      · next heq => exact .inr ⟨entry, rfl, heq, (Option.some.inj hkept).symm⟩
      · exact .inl hkept
  · have hloaded : index ∈ loaded.prepared := by
      obtain ⟨kept, hkept, -⟩ := hcontains.prepared index _
        (Std.ExtTreeMap.getElem?_eq_some_getElem hprepared)
      rw [Std.ExtTreeMap.mem_iff_isSome_getElem?, hkept]
      rfl
    refine ⟨loaded.addCommitted index, ReplicaJournal.load_record_commit_ok.2 ⟨hloaded, rfl⟩,
      ⟨?_, ?_, ?_⟩, ⟨?_, ?_, ?_⟩, ?_⟩
    · simpa using hcontains.prepared
    · intro other hother
      simp [hcontains.committed other hother]
    · simpa using hcontains.snapshotIndex
    · simpa [ReplicaJournal.record] using hcontains.prepared
    · intro other hother
      rw [ReplicaJournal.record, ReplicaJournal.mem_add_committed] at hother
      rw [ReplicaJournal.mem_add_committed]
      exact hother.imp_right (hcontains.committed other)
    · simpa [ReplicaJournal.record] using hcontains.snapshotIndex
    · intro other kept hkept
      exact .inl (by simpa using hkept)
  · refine ⟨{ loaded with snapshotIndex := max loaded.snapshotIndex index }, rfl,
      ⟨hcontains.prepared, hcontains.committed, ?_⟩,
      ⟨hcontains.prepared, hcontains.committed, le_max_right _ _⟩, fun _ _ hkept => .inl hkept⟩
    exact hcontains.snapshotIndex.trans (le_max_left _ _)

/-- A step that meets the condition keeps the history sound. -/
theorem sound_step {history : JournalHistory} {step : JournalStep} {complete torn : List UInt8}
    {loaded : ReplicaJournal} (hsound : history.Sound complete torn loaded)
    (hcall : step.call.representable = true) (hmeets : step.Meets history) :
    ∃ complete torn loaded, (step.run history).Sound complete torn loaded := by
  rcases step_cases history step with hrun | ⟨record, hcheck, ⟨hwrites, count, hcount, hrun⟩ |
    ⟨hwrites, journal, hjournal, hrun⟩⟩
  · rw [hrun]
    exact ⟨complete, torn, loaded, hsound⟩
  · -- The bytes written end no line, so they are torn off with those before them.
    rw [hrun]
    have hwritable := writable_of_check hcall hcheck
    refine ⟨complete, torn ++ (recordLine record).take count, loaded, ?_, hsound.ends, ?_,
      hsound.opens, hsound.contains, hsound.only_file⟩
    · simp [hsound.file]
    · intro byte hbyte
      rcases mem_append.1 hbyte with hbyte | hbyte
      · exact hsound.torn_line byte hbyte
      · rw [recordLine, length_append, length_singleton] at hcount
        rw [recordLine, take_append_of_le_length (by omega)] at hbyte
        exact (unbroken_record_text hwritable byte (mem_of_mem_take hbyte)).1
  · rw [hrun]
    have hwritable := writable_of_check hcall hcheck
    obtain ⟨hends, hagree⟩ := hmeets record hcheck hwrites
    have htorn : torn = [] := torn_eq_nil (hsound.file ▸ hends) hsound.torn_line
    have hcomplete : history.disk.file = complete := by rw [hsound.file, htorn, append_nil]
    have hconflict : ∀ entry, record = .prepare entry →
        ∀ existing ∈ loaded.prepared[entry.index]?,
          existing.mutationChecksum = entry.mutationChecksum := by
      rintro entry rfl existing hexisting
      have hnone : history.disk.journal.prepared[entry.index]? = none := by
        rcases check_some hcheck with ⟨other, -, hother, -, hnone⟩ | ⟨_, -, hother, -⟩ |
          ⟨_, -, hother, -⟩
        · cases hother
          exact hnone
        · cases hother
        · cases hother
      obtain ⟨earlier, hearlier, hindex, hchecksum⟩ :=
        hsound.only_file entry.index existing hexisting hnone
      rw [← hchecksum]
      exact hagree entry earlier rfl hearlier hindex
    obtain ⟨next, hload, hcontains, hrecorded, hkept⟩ :=
      load_record_contains hcall hsound.contains hcheck hconflict
    refine ⟨complete ++ recordLine record, [], next, ?_, .inr (by simp [recordLine]), by simp,
      open_append hsound.opens hsound.ends hwritable hload, ?_, ?_⟩
    · rw [append_nil, ← hcomplete]
    · rcases hjournal with rfl | rfl
      · exact hcontains
      · exact hrecorded
    · intro index kept hget hnone
      have hbefore : history.disk.journal.prepared[index]? = none := by
        rcases hjournal with rfl | rfl
        · exact hnone
        · exact prepared_none_of_record hnone
      rcases hkept index kept hget with hold | ⟨entry, hrecord, hindex, rfl⟩
      · obtain ⟨earlier, hearlier, hsame⟩ := hsound.only_file index kept hold hbefore
        exact ⟨earlier, by simp [hearlier], hsame⟩
      · exact ⟨entry, by simp [hrecord], hindex, rfl⟩

theorem sound_run {history : JournalHistory} {steps : List JournalStep}
    {complete torn : List UInt8} {loaded : ReplicaJournal}
    (hsound : history.Sound complete torn loaded)
    (hcalls : ∀ step ∈ steps, step.call.representable = true)
    (hmeets : StepsMeet history steps) :
    ∃ complete torn loaded, (runJournal history steps).Sound complete torn loaded := by
  induction steps generalizing history complete torn loaded with
  | nil => exact ⟨complete, torn, loaded, hsound⟩
  | cons step steps ih =>
      obtain ⟨_, _, _, hstep⟩ := sound_step hsound (hcalls step (by simp)) hmeets.1
      exact ih hstep (fun other hother => hcalls other (by simp [hother])) hmeets.2

/-- In a run whose steps all meet the condition the journal can be opened again after every step,
and contains the effects of every call that returned. -/
theorem failed_appends_reload {data : List UInt8} {start : JournalOnDisk}
    {steps : List JournalStep} (hopen : openJournal data = .ok start)
    (hcalls : ∀ step ∈ steps, step.call.representable = true)
    (hmeets : StepsMeet ⟨start, []⟩ steps) :
    ∃ reopened, openJournal (runJournal ⟨start, []⟩ steps).disk.file = .ok reopened ∧
      reopened.journal.Contains (runJournal ⟨start, []⟩ steps).disk.journal := by
  have hstored := stored_open hopen
  obtain ⟨loaded, hload, hsame⟩ := hstored.loads
  have hget : ∀ index : Nat, loaded.prepared[index]?.map ReplicatedEntry.canonical =
      start.journal.prepared[index]?.map ReplicatedEntry.canonical := hsame.prepared
  have hstart : JournalHistory.Sound ⟨start, []⟩ start.file [] loaded := by
    refine ⟨(append_nil _).symm, hstored.ends, by simp, hload, ⟨?_, ?_, ?_⟩, ?_⟩
    · intro index entry hentry
      have := hget index
      rw [hentry, Option.map_some, Option.map_eq_some_iff] at this
      exact this
    · exact fun index hindex => (hsame.committed index).2 hindex
    · exact hsame.snapshotIndex.ge
    · intro index kept hkept hnone
      have := hget index
      rw [hkept, hnone] at this
      cases this
  obtain ⟨complete, torn, reloaded, hsound⟩ := sound_run hstart hcalls hmeets
  refine ⟨⟨reloaded, complete⟩, ?_, hsound.contains⟩
  rw [hsound.file, open_torn hsound.ends hsound.torn_line, hsound.opens]

theorem loads_double_brace (rest : List Char) :
    loads (encodeText ('{' :: '{' :: rest)) = .error .decode := by
  rw [loads, decode_encode_text]
  simp only [String.toList_ofList, loadsText]
  rfl

theorem record_text_brace (record : JournalRecord) :
    ∃ rest, recordText record = encodeText ('{' :: rest) := by
  rw [recordText, canonical_bytes_eq, checkedEnvelope, Json.canonical, printText]
  exact ⟨_, rfl⟩

/-- A line behind the torn first byte of another one is corrupt. -/
theorem open_behind_brace (h : record.Writable) :
    openJournal (123 :: recordLine record) =
      .error (.protocol "replica journal corruption") := by
  have hends : EndsLine (123 :: recordLine record) := by
    rw [recordLine, ← cons_append]
    exact .inr List.getLast?_concat
  have hunbroken : Unbroken (123 :: recordText record) := by
    intro byte hbyte
    rcases mem_cons.1 hbyte with rfl | hbyte
    · decide
    · exact unbroken_record_text h byte hbyte
  have hsplit : splitLines (123 :: recordLine record) = [123 :: recordText record] := by
    have := split_lines_from_line hunbroken [] []
    simpa [splitLines, recordLine, splitLinesFrom] using this
  have hloads : loads (123 :: recordText record) = .error .decode := by
    obtain ⟨rest, hrest⟩ := record_text_brace record
    rw [hrest]
    exact loads_double_brace rest
  rw [openJournal, complete_lines_of_ends hends, hsplit]
  simp only [loadText, ReplicaJournal.loadLine, recordOfLine, hloads]
  rfl

end

/-- The condition holds of a prepare that raises before its first byte and is called again. -/
theorem failed_appends_reload_retried :
    letI := pythonFloatText
    StepsMeet ⟨⟨.empty, []⟩, []⟩
        [⟨.prepare writtenEntry, some 0⟩, ⟨.prepare writtenEntry, none⟩] ∧
      ∃ reopened, openJournal (runJournal ⟨⟨.empty, []⟩, []⟩
          [⟨.prepare writtenEntry, some 0⟩, ⟨.prepare writtenEntry, none⟩]).disk.file =
            .ok reopened ∧
        reopened.journal.Contains (runJournal ⟨⟨.empty, []⟩, []⟩
          [⟨.prepare writtenEntry, some 0⟩, ⟨.prepare writtenEntry, none⟩]).disk.journal := by
  let := pythonFloatText
  have hmeets : StepsMeet ⟨⟨.empty, []⟩, []⟩
      [⟨.prepare writtenEntry, some 0⟩, ⟨.prepare writtenEntry, none⟩] := by
    have hshort : ¬ JournalStep.WritesLine ⟨.prepare writtenEntry, some 0⟩
        (.prepare writtenEntry) := by
      simp [JournalStep.WritesLine, recordLine]
    have hfirst : JournalStep.run ⟨⟨.empty, []⟩, []⟩ ⟨.prepare writtenEntry, some 0⟩ =
        ⟨⟨.empty, []⟩, []⟩ := by
      simp only [JournalStep.run, written_entry_check, if_neg hshort]
      rfl
    refine ⟨?_, ?_, trivial⟩
    · intro record hrecord hwrites
      rw [written_entry_check] at hrecord
      cases hrecord
      exact absurd hwrites hshort
    · intro record hrecord hwrites
      rw [hfirst]
      exact ⟨.inl rfl, by simp⟩
  have hopen : openJournal [] = .ok ⟨.empty, []⟩ := rfl
  exact ⟨hmeets, failed_appends_reload hopen (by decide +kernel) hmeets⟩

/-- A prepare that raises after one byte and is called again leaves a journal that does not
open. -/
theorem retried_append_corrupts :
    letI := pythonFloatText
    ¬ ∀ steps : List JournalStep, (∀ step ∈ steps, step.call.representable = true) →
      ∃ reopened, openJournal (runJournal ⟨⟨.empty, []⟩, []⟩ steps).disk.file = .ok reopened ∧
        reopened.journal.Contains (runJournal ⟨⟨.empty, []⟩, []⟩ steps).disk.journal := by
  let := pythonFloatText
  intro h
  have hcheck := written_entry_check
  have hwritable : (JournalRecord.prepare writtenEntry).Writable :=
    writable_of_check (by decide +kernel) hcheck
  obtain ⟨rest, hrest⟩ := record_text_brace (.prepare writtenEntry)
  obtain ⟨reopened, hopen, -⟩ := h
    [⟨.prepare writtenEntry, some 1⟩, ⟨.prepare writtenEntry, none⟩] (by decide +kernel)
  have hfile : (runJournal ⟨⟨.empty, []⟩, []⟩
      [⟨.prepare writtenEntry, some 1⟩, ⟨.prepare writtenEntry, none⟩]).disk.file =
      123 :: recordLine (.prepare writtenEntry) := by
    simp only [runJournal, JournalStep.run, hcheck]
    rw [recordLine, hrest]
    rfl
  rw [hfile, open_behind_brace hwritable] at hopen
  cases hopen

end Akasha.Distributed

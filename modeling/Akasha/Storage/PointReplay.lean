import Akasha.Storage.PointTable

/-!
# Batches and their replay

A batch is the sequence of its mutations or nothing. `point_batch_sequential` says so of
`append_batch`, says what one accepted mutation leaves of a point, and says that recovery, which
decodes the envelopes of the accepted batches and replays them on a table at the same checkpoint,
comes to the table that wrote them.
-/

namespace Akasha

open Lib

/-- What an accepted mutation leaves of a point, part by part. `old` is the version before it, when
that was live. -/
structure Overrides (old : Option PointState) (mutation : PointMutation) (sequence : Nat)
    (next : PointState) : Prop where
  id_eq : next.id = mutation.id
  sequence_eq : next.sequence = sequence
  deleted : mutation.kind = 2 → next = PointState.deleted mutation.id sequence
  live : mutation.kind ≠ 2 → next.tombstone = false
  field : mutation.kind ≠ 2 → ∀ id, next.field? id =
    match findBy FieldUpdate.id id mutation.fields with
    | some update => update.value
    | none => old.bind (·.field? id)
  payload : mutation.kind ≠ 2 → next.payload =
    match mutation.payload with
    | some payload => some payload
    | none => (old.map (·.payload)).getD (some [])
  document_none : next.field? 0 = none → next.documentSequence = 0
  document_iff : (next.field? 0).isSome = true →
    (next.documentSequence = sequence ↔ mutation.changesDocument = true ∨ old = none)
  document_kept : (next.field? 0).isSome = true → mutation.changesDocument = false →
    ∀ point ∈ old, next.documentSequence = point.documentSequence

variable {catalog : FieldCatalog} {previous : Option PointState} {mutation : PointMutation}
  {sequence : Nat} {next : PointState}

/-- The fields of a patched point: the updates over the old fields. -/
theorem field_patched {old : Option PointState} (hold : ∀ point ∈ old, LivePoint catalog point)
    (hvalid : ValidMutation catalog mutation) (sequence id : Nat) :
    (patchedPoint old mutation sequence).field? id =
      match findBy FieldUpdate.id id mutation.fields with
      | some update => update.value
      | none => old.bind (·.field? id) := by
  have hsorted := old_fields_sorted hold
  have hupdates := hvalid.fields_sorted
  have hmerged := merge_fields_sorted hsorted hupdates
  have hnodup : ∀ {fields : List PointField}, FieldsSorted fields →
      (fields.map (·.id)).Nodup := fun h => h.imp fun hlt => Nat.ne_of_lt hlt
  have hupdatesNodup : (mutation.fields.map (·.id)).Nodup :=
    hupdates.imp fun hlt => Nat.ne_of_lt hlt
  show (findBy PointField.id id (mergeFields ((old.map (·.fields)).getD []) mutation.fields)).map
    (·.value) = _
  cases hfind : findBy FieldUpdate.id id mutation.fields with
  | none =>
      have hfresh : id ∉ mutation.fields.map (·.id) := find_by_none.1 hfind
      have hkept : findBy PointField.id id
          (mergeFields ((old.map (·.fields)).getD []) mutation.fields) =
            findBy PointField.id id ((old.map (·.fields)).getD []) :=
        find_merge_fields hsorted hupdates hfresh
      rw [hkept]
      cases old with
      | none => rfl
      | some point => rfl
  | some update =>
      obtain ⟨hmem, hid⟩ := (find_by_eq_some hupdatesNodup).1 hfind
      refine Option.ext fun value => ?_
      rw [Option.map_eq_some_iff]
      constructor
      · rintro ⟨field, hfield, rfl⟩
        obtain ⟨hfieldMem, hfieldId⟩ := (find_by_eq_some (hnodup hmerged)).1 hfield
        rcases (mem_merge_fields hsorted hupdates).1 hfieldMem with
          ⟨other, hother, hotherId, hvalue⟩ | ⟨-, hfresh⟩
        · have hsame := (find_by_eq_some hupdatesNodup).2 ⟨hother, hotherId.trans hfieldId⟩
          rw [hfind] at hsame
          rw [Option.some.inj hsame]
          exact hvalue
        · exact absurd (List.mem_map.2 ⟨update, hmem, hid.trans hfieldId.symm⟩) hfresh
      · intro hvalue
        refine ⟨⟨id, value⟩, (find_by_eq_some (hnodup hmerged)).2 ⟨?_, rfl⟩, rfl⟩
        exact (mem_merge_fields hsorted hupdates).2 (.inl ⟨update, hmem, hid, hvalue⟩)

/-- An accepted mutation of a valid point overrides the parts that it is about. -/
theorem mutated_overrides (hprevious : ∀ point ∈ previous, ValidPoint catalog point)
    (h : Mutated catalog previous mutation sequence next) :
    Overrides (previous.filter (!·.tombstone)) mutation sequence next := by
  by_cases hkind : mutation.kind = 2
  · have hnext : next = PointState.deleted mutation.id sequence := by
      rw [h.next_eq, if_pos hkind]
    have hnone : next.field? 0 = none := by
      rw [hnext]
      rfl
    refine ⟨h.id_eq, h.sequence_eq, fun _ => hnext, fun hne => absurd hkind hne,
      fun hne => absurd hkind hne, fun hne => absurd hkind hne, fun _ => ?_, fun hsome => ?_,
      fun hsome => ?_⟩
    · rw [hnext]
      rfl
    · rw [hnone] at hsome
      cases hsome
    · rw [hnone] at hsome
      cases hsome
  · have hnext : next = patchedPoint (previous.filter (!·.tombstone)) mutation sequence := by
      rw [h.next_eq, if_neg hkind]
    have hold := old_live hprevious
    have hfield := field_patched hold h.valid sequence
    -- The version of the document is decided by the first field.
    have hhead : ((mergeFields (((previous.filter (!·.tombstone)).map (·.fields)).getD [])
        mutation.fields).head?).any (·.id = 0) = (next.field? 0).isSome := by
      rw [head_zero_iff (merge_fields_sorted (old_fields_sorted hold) h.valid.fields_sorted), hnext,
        PointState.field?, Option.isSome_map]
      rfl
    have hdocument : next.documentSequence = if (next.field? 0).isSome = true then
        (previous.filter (!·.tombstone)).elim sequence fun point =>
          if mutation.changesDocument then sequence else point.documentSequence
        else 0 := by
      rw [← hhead, hnext]
      unfold patchedPoint
      cases previous.filter (!·.tombstone) <;> rfl
    refine ⟨h.id_eq, h.sequence_eq, fun heq => absurd heq hkind, fun _ => ?_, fun _ => ?_,
      fun _ => ?_, fun hnone => ?_, fun hsome => ?_, fun hsome hsame point hpoint => ?_⟩
    · rw [hnext]
      rfl
    · rw [hnext]
      exact hfield
    · rw [hnext]
      unfold patchedPoint
      cases mutation.payload with
      | none => rfl
      | some payload => rfl
    · rw [hdocument, hnone]
      rfl
    · rw [hdocument, if_pos hsome]
      cases hfilter : previous.filter (!·.tombstone) with
      | none => exact ⟨fun _ => .inr rfl, fun _ => rfl⟩
      | some point =>
          have hmem := (Option.filter_eq_some_iff.1 hfilter).1
          have hle := (hprevious point hmem).document_le
          have hlt := (h.previous_lt point hmem).2
          cases hchanges : mutation.changesDocument with
          | true => exact ⟨fun _ => .inl rfl, fun _ => rfl⟩
          | false =>
              show point.documentSequence = sequence ↔ _
              refine ⟨fun heq => by omega, fun hor => ?_⟩
              rcases hor with hcontra | hcontra
              · cases hcontra
              · cases hcontra
    · rw [hdocument, if_pos hsome, Option.mem_def.1 hpoint, hsame]
      rfl

namespace Storage

namespace PointTable

/-! ## Replay -/

/-- `replay`: one decoded envelope. A batch that the checkpoint covers is skipped. -/
def replay (table : PointTable) (batch : PointWalBatch) : Except String PointTable := do
  require (¬ table.writeFailed) "failed writer cannot be reused for recovery"
  let last ← batch.lastSequence
  if last.toNat ≤ table.checkpointSequence then pure table
  else do
    let states ← table.prepare batch.firstSequence.toNat batch.mutations
    pure (table.publish states last.toNat)

/-- The loop of recovery over the envelopes of a log: each is decoded after the last sequence of
the one before it, and replayed. -/
def replayLog (crc : Nat) (previous : UInt64) (table : PointTable) :
    List (List UInt8) → Except String PointTable
  | [] => pure table
  | bytes :: log => do
      let batch ← decodePointBatch bytes table.catalog crc previous
      let next ← table.replay batch
      let last ← batch.lastSequence
      replayLog crc last next log

/-- The envelope of a batch: `append_batch` encodes it after the last sequence. -/
def envelope (table : PointTable) (mutations : List PointMutation) : PointWalBatch :=
  ⟨UInt64.ofNat (table.lastSequence + 1), mutations⟩

/-- A batch and the outcome of appending its envelope to the log. -/
structure BatchAttempt where
  mutations : List PointMutation
  append : Except String Unit

/-- `append_batch`, with the encoder. -/
def attempt (table : PointTable) (batch : BatchAttempt) :
    PointTable × Except String PointCommit :=
  table.appendBatch batch.mutations
    (fun _ => do
      let _ ← encodePointBatch table.catalog (table.envelope batch.mutations))
    batch.append

/-- A writer's attempts one after another, with the envelopes that were appended. -/
def runAttempts (table : PointTable) : List BatchAttempt → PointTable × List (List UInt8)
  | [] => (table, [])
  | batch :: batches =>
      match table.attempt batch, encodePointBatch table.catalog (table.envelope batch.mutations) with
      | (next, .ok _), .ok bytes =>
          let run := runAttempts next batches
          (run.1, bytes :: run.2)
      | (next, _), _ => runAttempts next batches

variable {table : PointTable}

variable {mutations : List PointMutation}

theorem prepare_from_returns {states : List PointState} {sequence : Nat} {points : PointVersions}
    (h : applyMutations table.catalog (table.overlay states) sequence mutations = .ok points) :
    ∃ out, table.prepareFrom states sequence mutations = .ok out := by
  induction mutations generalizing states sequence with
  | nil => exact ⟨states, rfl⟩
  | cons mutation mutations ih =>
      simp only [applyMutations, bind_ok] at h
      obtain ⟨next, hnext, hrest⟩ := h
      have hid := (apply_point_mutation_ok hnext).id_eq
      rw [← hid, ← overlay_put] at hrest
      obtain ⟨out, hout⟩ := ih hrest
      exact ⟨out, bind_ok.2 ⟨next, hnext, hout⟩⟩

/-- What an encoded envelope says of the range of its sequences. -/
theorem envelope_range {bytes : List UInt8} (hlast : table.lastSequence < 2 ^ 64)
    (h : encodePointBatch table.catalog (table.envelope mutations) = .ok bytes) :
    1 ≤ mutations.length ∧ mutations.length ≤ maxPointBatchMutations ∧
      table.lastSequence + mutations.length < 2 ^ 64 := by
  simp only [encodePointBatch, validateRange, bind_ok, exists_unit, require_ok] at h
  obtain ⟨-, -, ⟨hcount, ⟨hfirst, -⟩, hrange⟩, -⟩ := h
  have hlt : table.lastSequence + 1 < 2 ^ 64 := by
    by_contra hge
    refine hfirst ?_
    have heq : table.lastSequence + 1 = 2 ^ 64 := by omega
    show UInt64.ofNat (table.lastSequence + 1) = 0
    rw [heq]
    rfl
  have hnat : (table.envelope mutations).firstSequence.toNat = table.lastSequence + 1 := by
    show (UInt64.ofNat (table.lastSequence + 1)).toNat = _
    rw [UInt64.toNat_ofNat']
    exact Nat.mod_eq_of_lt hlt
  rw [hnat] at hrange
  have hmutations : (table.envelope mutations).mutations = mutations := rfl
  rw [hmutations] at hcount hrange
  exact ⟨hcount.1, hcount.2, by omega⟩

/-- A batch whose mutations are valid one after another, whose envelope encodes and is appended, is
accepted. -/
theorem attempt_returns {points : PointVersions} {bytes : List UInt8}
    (hlast : table.lastSequence < 2 ^ 64) (hwriter : table.writeFailed = false)
    (happly : applyMutations table.catalog table.point? (table.lastSequence + 1) mutations =
      .ok points)
    (hencode : encodePointBatch table.catalog (table.envelope mutations) = .ok bytes) :
    ∃ next commit, table.attempt ⟨mutations, .ok ()⟩ = (next, .ok commit) := by
  obtain ⟨hpos, hcount, hroom⟩ := envelope_range hlast hencode
  have hoverlay : applyMutations table.catalog (table.overlay []) (table.lastSequence + 1)
      mutations = .ok points := happly
  obtain ⟨states, hstates⟩ := prepare_from_returns hoverlay
  have hprepare : table.prepare (table.lastSequence + 1) mutations = .ok states := by
    unfold prepare
    simp only [bind_ok, exists_unit, require_ok]
    exact ⟨⟨by omega, hcount, by omega, by omega⟩, hstates⟩
  have hprepared : (do
      require (¬ table.writeFailed) "point writer requires recovery after failed WAL append"
      require (mutations.length ≠ 0 ∧ mutations.length ≤ maxPointBatchMutations)
        "point batch count exceeds bounds"
      require (table.lastSequence + mutations.length < 2 ^ 64) "point sequence exhausted"
      let states ← table.prepare (table.lastSequence + 1) mutations
      let _ ← encodePointBatch table.catalog (table.envelope mutations)
      pure states : Except String (List PointState)) = .ok states := by
    simp only [bind_ok, exists_unit, require_ok, pure_ok]
    exact ⟨by rw [hwriter]; exact Bool.false_ne_true, ⟨by omega, hcount⟩, hroom, states, hprepare,
      bytes, hencode, rfl⟩
  unfold attempt appendBatch
  simp only [bind_assoc, pure_bind] at hprepared ⊢
  rw [hprepared]
  exact ⟨_, _, rfl⟩

variable {batch : BatchAttempt}

theorem attempt_error {next : PointTable} {e : String}
    (h : table.attempt batch = (next, .error e)) :
    next = table ∨ table.writeFailed = false ∧ next = { table with writeFailed := true } := by
  unfold attempt appendBatch at h
  simp only at h
  split at h
  · exact .inl (congrArg Prod.fst h).symm
  · rename_i states hprepared
    simp only [bind_ok, exists_unit, require_ok] at hprepared
    split at h
    · exact .inr ⟨by simpa using hprepared.1, (congrArg Prod.fst h).symm⟩
    · cases congrArg Prod.snd h

/-- An accepted batch was prepared after the last sequence, encoded and published. -/
theorem attempt_ok (hvalid : table.Valid) {next : PointTable} {commit : PointCommit}
    (h : table.attempt batch = (next, .ok commit)) :
    table.writeFailed = false ∧ next.writeFailed = false ∧
      (∃ bytes, encodePointBatch table.catalog (table.envelope batch.mutations) = .ok bytes) ∧
      table.lastSequence + batch.mutations.length < 2 ^ 64 ∧ batch.mutations.length ≠ 0 ∧
      ∃ states, table.prepare (table.lastSequence + 1) batch.mutations = .ok states ∧
        next = table.publish states (table.lastSequence + batch.mutations.length) := by
  obtain ⟨happlied, -⟩ := append_batch_ok hvalid h
  unfold attempt appendBatch at h
  simp only at h
  split at h
  · cases congrArg Prod.snd h
  · rename_i states hprepared
    simp only [bind_ok, exists_unit, require_ok, pure_ok] at hprepared
    obtain ⟨hwriter, ⟨hpos, -⟩, hroom, prepared, hprepare, ⟨bytes, hencode, -⟩, rfl⟩ :=
      hprepared
    have hfalse : table.writeFailed = false := by simpa using hwriter
    split at h
    · cases congrArg Prod.snd h
    · exact ⟨hfalse, happlied.failed_eq.trans hfalse, ⟨bytes, hencode⟩, hroom, hpos, prepared,
        hprepare, (congrArg Prod.fst h).symm⟩

/-- Replay of the envelope of an accepted batch comes to the table that wrote it. -/
theorem replay_attempt (hvalid : table.Valid) {next : PointTable} {commit : PointCommit}
    (h : table.attempt batch = (next, .ok commit)) :
    table.replay (table.envelope batch.mutations) = .ok next ∧
      ∃ last, (table.envelope batch.mutations).lastSequence = .ok last ∧
        last.toNat = next.lastSequence := by
  obtain ⟨hwriter, -, ⟨bytes, hencode⟩, hroom, hpos, states, hprepare, rfl⟩ := attempt_ok hvalid h
  have hfirst : (table.envelope batch.mutations).firstSequence.toNat = table.lastSequence + 1 := by
    show (UInt64.ofNat (table.lastSequence + 1)).toNat = _
    rw [UInt64.toNat_ofNat']
    exact Nat.mod_eq_of_lt (by omega)
  have hrange : validateRange (table.envelope batch.mutations).firstSequence
      (table.envelope batch.mutations).mutations.length table.catalog 0 = .ok () := by
    simp only [encodePointBatch, bind_ok, exists_unit] at hencode
    obtain ⟨-, -, hrange, -⟩ := hencode
    exact hrange
  obtain ⟨last, hlast, hlastNat⟩ := last_sequence_ok hrange
  have hmutations : (table.envelope batch.mutations).mutations = batch.mutations := rfl
  rw [hfirst, hmutations] at hlastNat
  have hsame : last.toNat = table.lastSequence + batch.mutations.length := by omega
  refine ⟨?_, last, hlast, hsame⟩
  unfold replay
  simp only [bind_ok, exists_unit, require_ok]
  refine ⟨by rw [hwriter]; exact Bool.false_ne_true, last, hlast, ?_⟩
  have hcheckpoint := hvalid.checkpoint_le
  rw [if_neg (by omega), hfirst, hsame]
  exact bind_ok.2 ⟨states, hprepare, rfl⟩

theorem run_attempts_failed (h : table.writeFailed = true) (batches : List BatchAttempt) :
    table.runAttempts batches = (table, []) := by
  induction batches with
  | nil => rfl
  | cons batch batches ih =>
      have hattempt : table.attempt batch =
          (table, .error "point writer requires recovery after failed WAL append") := by
        unfold attempt appendBatch
        rw [h]
        rfl
      rw [runAttempts, hattempt]
      exact ih

/-- Recovery of the envelopes that a writer appended comes to the table of the writer, ready for
the next batch. -/
theorem replay_attempts (hvalid : table.Valid) (hwriter : table.writeFailed = false) {crc : Nat}
    (hfits : CatalogFits table.catalog) (hcrc : fieldCatalogChecksum table.catalog = .ok crc)
    {batches : List BatchAttempt}
    (hconstructed : ∀ batch ∈ batches, PointWalBatch.Constructed ⟨0, batch.mutations⟩)
    {previous : UInt64} (hprevious : previous.toNat ≤ table.lastSequence) :
    replayLog crc previous table (table.runAttempts batches).2 =
      .ok { (table.runAttempts batches).1 with writeFailed := false } := by
  induction batches generalizing table previous with
  | nil =>
      show Except.ok table = Except.ok { table with writeFailed := false }
      rw [← hwriter]
  | cons batch batches ih =>
      have hrest := fun other hother => hconstructed other (List.mem_cons_of_mem _ hother)
      rcases hattempt : table.attempt batch with ⟨next, result⟩
      cases result with
      | error e =>
          have hrun : table.runAttempts (batch :: batches) = next.runAttempts batches := by
            rw [runAttempts, hattempt]
          rw [hrun]
          rcases attempt_error hattempt with rfl | ⟨-, rfl⟩
          · exact ih hvalid hwriter hfits hcrc hrest hprevious
          · rw [run_attempts_failed rfl]
            show Except.ok table = Except.ok { table with writeFailed := false }
            rw [← hwriter]
      | ok commit =>
          obtain ⟨happlied, hnext, -⟩ := append_batch_ok hvalid hattempt
          obtain ⟨-, hfailed, ⟨bytes, hencode⟩, hroom, hpos, -⟩ := attempt_ok hvalid hattempt
          obtain ⟨hreplay, last, hlast, hlastNat⟩ := replay_attempt hvalid hattempt
          have hrun : table.runAttempts (batch :: batches) =
              ((next.runAttempts batches).1, bytes :: (next.runAttempts batches).2) := by
            rw [runAttempts, hattempt, hencode]
          have hbatch : (table.envelope batch.mutations).Constructed :=
            hconstructed batch List.mem_cons_self
          have hafter : previous < (table.envelope batch.mutations).firstSequence := by
            refine UInt64.lt_iff_toNat_lt.2 ?_
            show _ < (UInt64.ofNat (table.lastSequence + 1)).toNat
            rw [UInt64.toNat_ofNat', Nat.mod_eq_of_lt (by omega)]
            omega
          obtain ⟨-, -, -, -, hdecode⟩ := decode_encode_point_batch hfits hcrc hbatch hencode
          have hcatalog := happlied.catalog_eq
          rw [hrun, replayLog]
          refine bind_ok.2 ⟨_, hdecode previous hafter, ?_⟩
          refine bind_ok.2 ⟨next, hreplay, bind_ok.2 ⟨last, hlast, ?_⟩⟩
          exact ih hnext hfailed (hcatalog ▸ hfits) (hcatalog ▸ hcrc) hrest hlastNat.le

/-- A batch is the sequence of its mutations or nothing. When each mutation is valid in the state
that the earlier ones leave, the envelope encodes and the append returns, the table shows exactly
the versions that the mutations leave one after another. Any other attempt raises and changes no
point. An accepted mutation overrides the parts it is about and leaves a valid version. The
envelopes of the accepted batches replay to the table of the writer. -/
theorem point_batch_sequential (table : PointTable) (hvalid : table.Valid)
    (hlast : table.lastSequence < 2 ^ 64) :
    (∀ mutations points bytes, table.writeFailed = false →
      applyMutations table.catalog table.point? (table.lastSequence + 1) mutations = .ok points →
      encodePointBatch table.catalog (table.envelope mutations) = .ok bytes →
      ∃ next commit, table.attempt ⟨mutations, .ok ()⟩ = (next, .ok commit) ∧
        next.point? = points ∧ next.lastSequence = table.lastSequence + mutations.length ∧
        next.Valid) ∧
    (∀ batch next e, table.attempt batch = (next, .error e) →
      next.points = table.points ∧ next.lastSequence = table.lastSequence ∧
        next.liveCount = table.liveCount) ∧
    (∀ batch next commit, table.attempt batch = (next, .ok commit) →
      (∃ bytes, encodePointBatch table.catalog (table.envelope batch.mutations) = .ok bytes) ∧
      batch.append = .ok () ∧
      applyMutations table.catalog table.point? (table.lastSequence + 1) batch.mutations =
        .ok next.point? ∧
      (∀ id point, next.point? id = some point → point.validate table.catalog = .ok ()) ∧
      next.liveCount = next.points.countP (!·.tombstone) ∧ next.Valid) ∧
    (∀ previous mutation sequence next,
      (∀ point ∈ previous, PointState.validate point table.catalog = .ok ()) →
      applyPointMutation previous mutation sequence table.catalog = .ok next →
      Overrides (previous.filter (!·.tombstone)) mutation sequence next ∧
        next.validate table.catalog = .ok ()) ∧
    (∀ crc batches previous, table.writeFailed = false → CatalogFits table.catalog →
      fieldCatalogChecksum table.catalog = .ok crc →
      (∀ batch ∈ batches, PointWalBatch.Constructed ⟨0, BatchAttempt.mutations batch⟩) →
      previous.toNat ≤ table.lastSequence →
      replayLog crc previous table (table.runAttempts batches).2 =
        .ok { (table.runAttempts batches).1 with writeFailed := false }) := by
  refine ⟨fun mutations points bytes hwriter happly hencode => ?_, fun batch next e hattempt => ?_,
    fun batch next commit hattempt => ?_, fun previous mutation sequence next hprevious hstep => ?_,
    fun crc batches previous hwriter hfits hcrc hconstructed hprevious =>
      replay_attempts hvalid hwriter hfits hcrc hconstructed hprevious⟩
  · obtain ⟨next, commit, hattempt⟩ := attempt_returns hlast hwriter happly hencode
    obtain ⟨happlied, hnext, -⟩ := append_batch_ok hvalid hattempt
    have hpoints := happlied.applied
    rw [happly] at hpoints
    have hpos : mutations.length ≠ 0 := happlied.count_pos
    have hreached : next.lastSequence = table.lastSequence + 1 + (mutations.length - 1) :=
      happlied.last_eq
    exact ⟨next, commit, hattempt, (Except.ok.inj hpoints).symm, by omega, hnext⟩
  · rcases attempt_error hattempt with rfl | ⟨-, rfl⟩
    · exact ⟨rfl, rfl, rfl⟩
    · exact ⟨rfl, rfl, rfl⟩
  · obtain ⟨happlied, hnext, hwrite, happend, -⟩ := append_batch_ok hvalid hattempt
    obtain ⟨bytes, hencode, -⟩ := bind_ok.1 hwrite
    refine ⟨⟨bytes, hencode⟩, happend, happlied.applied, fun id point hpoint => ?_, hnext.live_eq,
      hnext⟩
    obtain ⟨-, hpointValid, -⟩ := hnext.versions id point hpoint
    rw [happlied.catalog_eq] at hpointValid
    exact point_validate_ok.2 hpointValid
  · have hmutated := apply_point_mutation_ok hstep
    have hold : ∀ point ∈ previous, ValidPoint table.catalog point := fun point hpoint =>
      point_validate_ok.1 (hprevious point hpoint)
    exact ⟨mutated_overrides hold hmutated, point_validate_ok.2 (mutated_valid hold hmutated)⟩

/-- A table without points. -/
def sampleTable : PointTable :=
  ⟨sampleCatalog, [], 2, 2, 0, false⟩

/-- A point is created, deleted and created again; another one loses its last field. -/
def sampleBatch : List PointMutation :=
  [⟨8, 1, [⟨2, some (.binary 8 [5])⟩], some [⟨"kind", .boolean true⟩]⟩, ⟨8, 2, [], none⟩,
    ⟨8, 1, [⟨0, some (.dense (.f32 [⟨1⟩]))⟩], none⟩, ⟨9, 1, [⟨2, some (.binary 8 [5])⟩], none⟩,
    ⟨9, 3, [⟨2, none⟩], none⟩]

theorem point_batch_sequential_sample : ∃ next commit,
    sampleTable.attempt ⟨sampleBatch, .ok ()⟩ = (next, .ok commit) ∧ next.Valid ∧
      next.point? 8 =
        some ⟨8, 5, 5, false, [⟨0, .dense (.f32 [⟨1⟩])⟩], some []⟩ ∧
      next.point? 9 = some ⟨9, 7, 0, false, [], some []⟩ := by
  have hvalid : sampleTable.Valid := by
    have hcreate : create sampleCatalog 2 [] = .ok sampleTable := by rfl
    exact (create_ok hcreate).1
  have hpoints : ((applyMutations sampleTable.catalog sampleTable.point? 3 sampleBatch).toOption.map
      fun points => (points 8, points 9)) = some
        (some ⟨8, 5, 5, false, [⟨0, .dense (.f32 [⟨1⟩])⟩], some []⟩,
          some ⟨9, 7, 0, false, [], some []⟩) := by
    decide +kernel
  have hencoded : (encodePointBatch sampleTable.catalog
      (sampleTable.envelope sampleBatch)).toOption.isSome = true := by
    decide +kernel
  cases happly : applyMutations sampleTable.catalog sampleTable.point? 3 sampleBatch with
  | error e =>
      rw [happly] at hpoints
      cases hpoints
  | ok points =>
      rw [happly] at hpoints
      obtain ⟨hfirst, hsecond⟩ := Prod.mk.inj (Option.some.inj hpoints)
      cases hencode : encodePointBatch sampleTable.catalog (sampleTable.envelope sampleBatch) with
      | error e =>
          rw [hencode] at hencoded
          cases hencoded
      | ok bytes =>
          obtain ⟨haccepted, -⟩ := point_batch_sequential sampleTable hvalid (by decide)
          obtain ⟨next, commit, hattempt, hshown, -, hnext⟩ :=
            haccepted sampleBatch points bytes rfl happly hencode
          exact ⟨next, commit, hattempt, hnext, by rw [hshown]; exact hfirst,
            by rw [hshown]; exact hsecond⟩

end PointTable

end Storage

end Akasha

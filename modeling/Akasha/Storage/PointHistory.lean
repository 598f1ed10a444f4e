import Akasha.Storage.PointReplay
import Akasha.Storage.PointSegment

/-!
# The history of a collection

What a collection of points holds is a function of the batches that it accepted: `replayHistory`
applies them one after another. A table that went through checkpoints may have lost tombstones that
the history keeps; `ShownUpTo` is this difference, and no mutation can tell it. `PointTable.Shows`
connects a table to the history, and a batch extends both.
-/

namespace Akasha.Storage

open Lib PointTable

/-- A batch on versions of points, and on the sequence of the last mutation. -/
def commitBatch (catalog : FieldCatalog) (state : PointVersions × Nat)
    (batch : List PointMutation) : Except String (PointVersions × Nat) := do
  let points ← applyMutations catalog state.1 (state.2 + 1) batch
  pure (points, state.2 + batch.length)

/-- The versions of points that batches leave in a new collection, and the last sequence. -/
def replayHistory (catalog : FieldCatalog) (batches : List (List PointMutation)) :
    Except String (PointVersions × Nat) :=
  batches.foldlM (commitBatch catalog) (fun _ => none, catalog.legacyCutoverSequence)

/-- The last sequence of batches in a new collection. -/
def sequenceAfter (catalog : FieldCatalog) (batches : List (List PointMutation)) : Nat :=
  catalog.legacyCutoverSequence + (batches.map List.length).sum

/-- The values of a batch were made by their constructors. -/
def BatchConstructed (batch : List PointMutation) : Prop :=
  ∀ mutation ∈ batch, ∀ update ∈ mutation.fields, ∀ value,
    update.value = some value → value.Constructed

/-- Batches of constructed values lead to these versions and this sequence. -/
structure History (catalog : FieldCatalog) (batches : List (List PointMutation))
    (points : PointVersions) (last : Nat) : Prop where
  replayed : replayHistory catalog batches = .ok (points, last)
  constructed : ∀ batch ∈ batches, BatchConstructed batch
  nonempty : ∀ batch ∈ batches, batch ≠ []

variable {batch : List PointMutation}

section

variable {catalog : FieldCatalog} {batches : List (List PointMutation)} {points : PointVersions}
  {last : Nat}

theorem commit_batch_ok {state next : PointVersions × Nat} :
    commitBatch catalog state batch = .ok next ↔
      applyMutations catalog state.1 (state.2 + 1) batch = .ok next.1 ∧
        next.2 = state.2 + batch.length := by
  unfold commitBatch
  simp only [bind_ok, pure_ok]
  obtain ⟨points, last⟩ := next
  simp only [Prod.mk.injEq]
  constructor
  · rintro ⟨out, hout, rfl, rfl⟩
    exact ⟨hout, rfl⟩
  · rintro ⟨hout, rfl⟩
    exact ⟨points, hout, rfl, rfl⟩

theorem history_nil (catalog : FieldCatalog) :
    History catalog [] (fun _ => none) catalog.legacyCutoverSequence :=
  ⟨rfl, fun _ h => absurd h List.not_mem_nil, fun _ h => absurd h List.not_mem_nil⟩

/-- A history goes on with its last batch. -/
theorem history_append {next : PointVersions} :
    History catalog (batches ++ [batch]) next last ↔
      ∃ points before, History catalog batches points before ∧ BatchConstructed batch ∧
        batch ≠ [] ∧ applyMutations catalog points (before + 1) batch = .ok next ∧
          last = before + batch.length := by
  have hreplay : replayHistory catalog (batches ++ [batch]) = .ok (next, last) ↔
      ∃ points before, replayHistory catalog batches = .ok (points, before) ∧
        applyMutations catalog points (before + 1) batch = .ok next ∧
          last = before + batch.length := by
    unfold replayHistory
    rw [List.foldlM_append]
    simp only [bind_ok, Prod.exists, List.foldlM_cons, List.foldlM_nil, pure_ok,
      commit_batch_ok]
    constructor
    · rintro ⟨points, before, hpoints, _, _, ⟨happly, hlast⟩, heq⟩
      obtain ⟨rfl, rfl⟩ := Prod.mk.inj heq
      exact ⟨points, before, hpoints, happly, hlast⟩
    · rintro ⟨points, before, hpoints, happly, hlast⟩
      exact ⟨points, before, hpoints, next, last, ⟨happly, hlast⟩, rfl⟩
  constructor
  · rintro ⟨hreplayed, hconstructed, hnonempty⟩
    rw [hreplay] at hreplayed
    obtain ⟨points, before, hpoints, happly, hlast⟩ := hreplayed
    exact ⟨points, before, ⟨hpoints, fun b hb => hconstructed b (List.mem_append_left _ hb),
      fun b hb => hnonempty b (List.mem_append_left _ hb)⟩,
      hconstructed batch (by simp), hnonempty batch (by simp), happly, hlast⟩
  · rintro ⟨points, before, ⟨hpoints, hconstructed, hnonempty⟩, hbatch, hne, happly, hlast⟩
    refine ⟨hreplay.2 ⟨points, before, hpoints, happly, hlast⟩, fun b hb => ?_, fun b hb => ?_⟩
    · rcases List.mem_append.1 hb with hb | hb
      · exact hconstructed b hb
      · exact List.mem_singleton.1 hb ▸ hbatch
    · rcases List.mem_append.1 hb with hb | hb
      · exact hnonempty b hb
      · exact List.mem_singleton.1 hb ▸ hne

theorem History.unique {points' : PointVersions} {last' : Nat}
    (h : History catalog batches points last) (h' : History catalog batches points' last') :
    points = points' ∧ last = last' := by
  have heq := h.replayed.symm.trans h'.replayed
  exact Prod.mk.inj (Except.ok.inj heq)

/-! ## Sequences -/

@[simp] theorem sequence_after_append (more : List (List PointMutation)) :
    sequenceAfter catalog (batches ++ more) =
      sequenceAfter catalog batches + (more.map List.length).sum := by
  simp [sequenceAfter, Nat.add_assoc]

theorem sequence_after_take_le (catalog : FieldCatalog) (batches : List (List PointMutation))
    (count : Nat) :
    sequenceAfter catalog (batches.take count) ≤ sequenceAfter catalog batches := by
  nth_rewrite 2 [← List.take_append_drop count batches]
  rw [sequence_after_append]
  exact Nat.le_add_right _ _

theorem History.last_eq {points : PointVersions} (h : History catalog batches points last) :
    last = sequenceAfter catalog batches := by
  induction batches using List.reverseRecOn generalizing points last with
  | nil => exact (h.unique (history_nil catalog)).2
  | append_singleton batches batch ih =>
      obtain ⟨_, before, hbefore, -, -, -, rfl⟩ := history_append.1 h
      rw [sequence_after_append, ← ih hbefore]
      simp

/-! ## What the versions are -/

/-- The vector values of a version were made by their constructors. -/
def FieldsConstructed (point : PointState) : Prop :=
  ∀ field ∈ point.fields, field.value.Constructed

/-- A mutation keeps the values of the version before it, or brings its own. -/
theorem mutated_constructed {previous : Option PointState} {mutation : PointMutation}
    {sequence : Nat} {next : PointState}
    (hprevious : ∀ point ∈ previous, ValidPoint catalog point ∧ FieldsConstructed point)
    (hmutation : ∀ update ∈ mutation.fields, ∀ value, update.value = some value →
      value.Constructed)
    (h : Mutated catalog previous mutation sequence next) : FieldsConstructed next := by
  intro field hfield
  rw [h.next_eq] at hfield
  split at hfield
  · cases hfield
  · have hold := old_live fun point hpoint => (hprevious point hpoint).1
    rcases (mem_merge_fields (old_fields_sorted hold) h.valid.fields_sorted).1 hfield with
      ⟨update, hupdate, -, hvalue⟩ | ⟨hkept, -⟩
    · exact hmutation update hupdate _ hvalue
    · cases hfilter : previous.filter (!·.tombstone) with
      | none =>
          rw [hfilter] at hkept
          exact absurd hkept List.not_mem_nil
      | some point =>
          rw [hfilter] at hkept
          have hmem := (Option.filter_eq_some_iff.1 hfilter).1
          exact (hprevious point hmem).2 field hkept

/-- What a history says of its versions: they are valid, stored under their identifiers, of a
sequence that was reached, and made of constructed values. -/
structure VersionsOk (catalog : FieldCatalog) (points : PointVersions) (last : Nat) : Prop where
  valid : VersionsValid catalog points last
  constructed : ∀ id point, points id = some point → FieldsConstructed point

/-- A batch keeps the versions valid and makes the changed ones newer. -/
theorem apply_mutations_versions {next : PointVersions} (h : VersionsOk catalog points last)
    (hbatch : BatchConstructed batch)
    (happly : applyMutations catalog points (last + 1) batch = .ok next) :
    VersionsOk catalog next (last + batch.length) ∧
      ∀ id, next id = points id ∨ ∃ point, next id = some point ∧ last < point.sequence := by
  have hinv := apply_mutations_inv (fun current sequence => last < sequence ∧
    VersionsOk catalog current (sequence - 1) ∧
      ∀ id, current id = points id ∨ ∃ point, current id = some point ∧ last < point.sequence)
    ⟨Nat.lt_succ_self last, h, fun _ => .inl rfl⟩ ?_ happly
  · obtain ⟨-, hvalid, hnewer⟩ := hinv
    have heq : last + 1 + batch.length - 1 = last + batch.length := by omega
    exact ⟨heq ▸ hvalid, hnewer⟩
  · rintro current sequence mutation hmutation updated ⟨hlt, hok, hnewer⟩ hmutated
    have hprevious : ∀ point ∈ current mutation.id,
        ValidPoint catalog point ∧ FieldsConstructed point := fun point hpoint =>
      ⟨(hok.valid mutation.id point hpoint).2.1, hok.constructed mutation.id point hpoint⟩
    refine ⟨by omega, ⟨fun id point hpoint => ?_, fun id point hpoint => ?_⟩, fun id => ?_⟩
    · rw [Function.update_apply] at hpoint
      split at hpoint
      · rename_i hid
        obtain rfl := Option.some.inj hpoint
        refine ⟨hmutated.id_eq.trans hid.symm, mutated_valid (fun old hold =>
          (hprevious old hold).1) hmutated, ?_⟩
        rw [hmutated.sequence_eq]
        omega
      · obtain ⟨hid, hvalid, hle⟩ := hok.valid id point hpoint
        exact ⟨hid, hvalid, by omega⟩
    · rw [Function.update_apply] at hpoint
      split at hpoint
      · obtain rfl := Option.some.inj hpoint
        exact mutated_constructed hprevious (hbatch mutation hmutation) hmutated
      · exact hok.constructed id point hpoint
    · rw [Function.update_apply]
      split
      · exact .inr ⟨updated, rfl, by rw [hmutated.sequence_eq]; exact hlt⟩
      · exact hnewer id

theorem History.versions (h : History catalog batches points last) :
    VersionsOk catalog points last := by
  induction batches using List.reverseRecOn generalizing points last with
  | nil =>
      obtain ⟨rfl, rfl⟩ := h.unique (history_nil catalog)
      exact ⟨fun id point hpoint => (by cases hpoint), fun id point hpoint => (by cases hpoint)⟩
  | append_singleton batches batch ih =>
      obtain ⟨before, sequence, hbefore, hbatch, -, happly, rfl⟩ := history_append.1 h
      exact (apply_mutations_versions (ih hbefore) hbatch happly).1

/-- The versions that a longer history changes are newer than the shorter one. -/
theorem History.newer {more : List (List PointMutation)} {points' : PointVersions} {last' : Nat}
    (h : History catalog batches points last)
    (h' : History catalog (batches ++ more) points' last') :
    last ≤ last' ∧ ∀ id, points' id = points id ∨
      ∃ point, points' id = some point ∧ last < point.sequence := by
  induction more using List.reverseRecOn generalizing points' last' with
  | nil =>
      rw [List.append_nil] at h'
      obtain ⟨rfl, rfl⟩ := h.unique h'
      exact ⟨le_rfl, fun _ => .inl rfl⟩
  | append_singleton more batch ih =>
      rw [← List.append_assoc] at h'
      obtain ⟨middle, sequence, hmiddle, hbatch, -, happly, rfl⟩ := history_append.1 h'
      obtain ⟨hle, hnewer⟩ := ih hmiddle
      refine ⟨by omega, fun id => ?_⟩
      rcases (apply_mutations_versions hmiddle.versions hbatch happly).2 id with heq | hnew
      · rw [heq]
        exact hnewer id
      · obtain ⟨point, hpoint, hlt⟩ := hnew
        exact .inr ⟨point, hpoint, by omega⟩

theorem History.take (h : History catalog batches points last) (count : Nat) :
    ∃ points' last', History catalog (batches.take count) points' last' := by
  induction batches using List.reverseRecOn generalizing points last with
  | nil => exact ⟨points, last, by rwa [List.take_nil]⟩
  | append_singleton batches batch ih =>
      obtain ⟨before, sequence, hbefore, -⟩ := history_append.1 h
      by_cases hle : count ≤ batches.length
      · rw [List.take_append_of_le_length hle]
        exact ih hbefore
      · refine ⟨points, last, ?_⟩
        rwa [List.take_of_length_le (by rw [List.length_append, List.length_singleton]; omega)]

/-- Every point of a history took a sequence. -/
theorem History.count_le (h : History catalog batches points last) {ids : List Int64}
    (hnodup : ids.Nodup) (hids : ∀ id ∈ ids, points id ≠ none) : ids.length ≤ last := by
  induction batches using List.reverseRecOn generalizing points last ids with
  | nil =>
      obtain ⟨rfl, -⟩ := h.unique (history_nil catalog)
      cases ids with
      | nil => exact Nat.zero_le _
      | cons id ids => exact absurd rfl (hids id List.mem_cons_self)
  | append_singleton batches batch ih =>
      obtain ⟨before, sequence, hbefore, -, -, happly, rfl⟩ := history_append.1 h
      have hinv := apply_mutations_inv (fun points next => ∀ ids : List Int64, ids.Nodup →
        (∀ id ∈ ids, points id ≠ none) → ids.length < next)
        (fun ids hnodup hids => Nat.lt_succ_of_le (ih hbefore hnodup hids)) ?_ happly
      · have := hinv ids hnodup hids
        omega
      · intro current next mutation _ updated hcount _ ids hnodup hids
        -- Only the point of the mutation may be new.
        have hrest := hcount (ids.erase mutation.id) (hnodup.erase _) fun id hid => by
          obtain ⟨hne, hmem⟩ := (hnodup.mem_erase_iff).1 hid
          have := hids id hmem
          rwa [Function.update_of_ne hne] at this
        have hlength : ids.length ≤ (ids.erase mutation.id).length + 1 := by
          rw [List.length_erase]
          split <;> omega
        omega

theorem History.point_constructed (h : History catalog batches points last)
    (hlast : last < 2 ^ 64) {id : Int64} {point : PointState} (hpoint : points id = some point) :
    point.Constructed := by
  obtain ⟨-, hvalid, hle⟩ := h.versions.valid id point hpoint
  refine ⟨by omega, h.versions.constructed id point hpoint, fun payload hpayload => ?_⟩
  rcases hvalid.content with hlive | hdead
  · obtain ⟨stored, hstored, hok⟩ := hlive.payload_ok
    obtain rfl := Option.some.inj (hstored.symm.trans hpayload)
    exact valid_of_point_payload hok
  · rw [hdead.payload_eq] at hpayload
    cases hpayload

end

/-! ## Lost tombstones -/

/-- What a table shows of versions: it may lack tombstones up to a sequence. -/
def ShownUpTo (bound : Nat) (found points : PointVersions) : Prop :=
  ∀ id, found id = points id ∨
    found id = none ∧ ∃ point, points id = some point ∧ point.tombstone = true ∧
      point.sequence ≤ bound

section

variable {catalog : FieldCatalog} {bound : Nat} {found points : PointVersions}

theorem shown_refl (bound : Nat) (points : PointVersions) : ShownUpTo bound points points :=
  fun _ => .inl rfl

theorem ShownUpTo.weaken {bound' : Nat} (h : ShownUpTo bound found points) (hle : bound ≤ bound') :
    ShownUpTo bound' found points := by
  intro id
  rcases h id with heq | hlost
  · exact .inl heq
  · obtain ⟨hnone, point, hpoint, hdead, hsequence⟩ := hlost
    exact .inr ⟨hnone, point, hpoint, hdead, hsequence.trans hle⟩

theorem ShownUpTo.live (h : ShownUpTo bound found points) (id : Int64) :
    (found id).filter (!·.tombstone) = (points id).filter (!·.tombstone) := by
  rcases h id with heq | hlost
  · rw [heq]
  · obtain ⟨hnone, point, hpoint, hdead, -⟩ := hlost
    rw [hnone, hpoint, Option.filter_none, Option.filter_some, hdead]
    rfl

/-- A mutation cannot tell a lost tombstone from a point that never was. -/
theorem apply_point_mutation_shown {sequence : Nat} {mutation : PointMutation}
    (h : ShownUpTo bound found points)
    (hbefore : ∀ id point, points id = some point → point.id = id ∧ point.sequence < sequence) :
    applyPointMutation (found mutation.id) mutation sequence catalog =
      applyPointMutation (points mutation.id) mutation sequence catalog := by
  rcases h mutation.id with heq | hlost
  · rw [heq]
  · obtain ⟨hnone, point, hpoint, hdead, -⟩ := hlost
    obtain ⟨hid, hlt⟩ := hbefore mutation.id point hpoint
    have hchecks : (∀ old ∈ (none : Option PointState), old.id = mutation.id ∧
        old.sequence < sequence) ↔ ∀ old ∈ some point, old.id = mutation.id ∧
          old.sequence < sequence := by
      simp [hid, hlt]
    have hfilter : (some point).filter (fun old => !old.tombstone) = none := by
      simp [hdead]
    rw [hnone, hpoint]
    unfold applyPointMutation
    simp only [hchecks, hfilter, Option.filter_none]

/-- A batch leaves the same difference. -/
theorem apply_mutations_shown {sequence : Nat} (h : ShownUpTo bound found points)
    (hbefore : ∀ id point, points id = some point → point.id = id ∧ point.sequence < sequence) :
    (∀ next, applyMutations catalog points sequence batch = .ok next →
      ∃ shown, applyMutations catalog found sequence batch = .ok shown ∧
        ShownUpTo bound shown next) ∧
    (∀ shown, applyMutations catalog found sequence batch = .ok shown →
      ∃ next, applyMutations catalog points sequence batch = .ok next ∧
        ShownUpTo bound shown next) := by
  induction batch generalizing found points sequence with
  | nil =>
      constructor
      · intro next hnext
        obtain rfl := pure_ok.1 hnext
        exact ⟨found, rfl, h⟩
      · intro shown hshown
        obtain rfl := pure_ok.1 hshown
        exact ⟨points, rfl, h⟩
  | cons mutation batch ih =>
      have hsame : applyPointMutation (found mutation.id) mutation sequence catalog =
          applyPointMutation (points mutation.id) mutation sequence catalog :=
        apply_point_mutation_shown h hbefore
      have hstep : ∀ next, applyPointMutation (points mutation.id) mutation sequence catalog =
          .ok next → ShownUpTo bound (Function.update found mutation.id (some next))
            (Function.update points mutation.id (some next)) ∧
          ∀ id point, Function.update points mutation.id (some next) id = some point →
            point.id = id ∧ point.sequence < sequence + 1 := by
        intro next hnext
        have hmutated := apply_point_mutation_ok hnext
        constructor
        · intro id
          by_cases hid : id = mutation.id
          · subst hid
            exact .inl (by simp)
          · rw [Function.update_of_ne hid, Function.update_of_ne hid]
            exact h id
        · intro id point hpoint
          rw [Function.update_apply] at hpoint
          split at hpoint
          · rename_i hid
            obtain rfl := Option.some.inj hpoint
            exact ⟨hmutated.id_eq.trans hid.symm, by rw [hmutated.sequence_eq]; omega⟩
          · obtain ⟨hid, hlt⟩ := hbefore id point hpoint
            exact ⟨hid, by omega⟩
      simp only [applyMutations, bind_ok, hsame]
      constructor
      · rintro out ⟨next, hnext, hrest⟩
        obtain ⟨hshown, hlater⟩ := hstep next hnext
        obtain ⟨shown, hshown, hsim⟩ := (ih hshown hlater).1 out hrest
        exact ⟨shown, ⟨next, hnext, hshown⟩, hsim⟩
      · rintro out ⟨next, hnext, hrest⟩
        obtain ⟨hshown, hlater⟩ := hstep next hnext
        obtain ⟨after, hafter, hsim⟩ := (ih hshown hlater).2 out hrest
        exact ⟨after, ⟨next, hnext, hafter⟩, hsim⟩

end

/-! ## Tables -/

/-- The table is at the end of a history. -/
structure PointTable.Shows (table : PointTable) (catalog : FieldCatalog)
    (batches : List (List PointMutation)) : Prop where
  valid : table.Valid
  catalog_eq : table.catalog = catalog
  last_lt : table.lastSequence < 2 ^ 64
  history : ∃ points, History catalog batches points table.lastSequence ∧
    ShownUpTo table.checkpointSequence table.point? points

section

variable {catalog : FieldCatalog} {batches : List (List PointMutation)} {table next : PointTable}

variable {last : Nat}

theorem History.before {points : PointVersions} (h : History catalog batches points last)
    (id : Int64) (point : PointState) (hpoint : points id = some point) :
    point.id = id ∧ point.sequence < last + 1 := by
  obtain ⟨hid, -, hle⟩ := h.versions.valid id point hpoint
  exact ⟨hid, by omega⟩

theorem PointTable.Shows.last_eq {table : PointTable} (h : table.Shows catalog batches) :
    table.lastSequence = sequenceAfter catalog batches := by
  obtain ⟨_, hhistory, -⟩ := h.history
  exact hhistory.last_eq

/-- What a batch leaves of a table extends the history. -/
theorem PointTable.Shows.applied (h : table.Shows catalog batches)
    (hbatch : BatchConstructed batch)
    (happlied : table.Applied (table.lastSequence + 1) batch next) (hnext : next.Valid) :
    next.Shows catalog (batches ++ [batch]) := by
  obtain ⟨points, hhistory, hshown⟩ := h.history
  have happly := happlied.applied
  rw [h.catalog_eq] at happly
  obtain ⟨after, hafter, hsim⟩ := (apply_mutations_shown hshown hhistory.before).2 _ happly
  have hpos := happlied.count_pos
  have hlast := happlied.last_eq
  have hlt := happlied.last_lt
  refine ⟨hnext, happlied.catalog_eq.trans h.catalog_eq, by omega, after, ?_, ?_⟩
  · refine history_append.2 ⟨points, table.lastSequence, hhistory, hbatch, fun hnil => ?_, hafter,
      by omega⟩
    exact hpos (by rw [hnil]; rfl)
  · rw [happlied.checkpoint_eq]
    exact hsim

theorem PointTable.Shows.attempt (h : table.Shows catalog batches) {batch : BatchAttempt}
    (hbatch : BatchConstructed batch.mutations) {commit : PointCommit}
    (hattempt : table.attempt batch = (next, .ok commit)) :
    next.Shows catalog (batches ++ [batch.mutations]) := by
  obtain ⟨happlied, hnext, -⟩ := append_batch_ok h.valid hattempt
  exact h.applied hbatch happlied hnext

/-- The envelope of the batch behind a sequence. -/
def envelopeAfter (last : Nat) (batch : List PointMutation) : PointWalBatch :=
  ⟨UInt64.ofNat (last + 1), batch⟩

/-- What the encoder of an envelope has checked of the sequences. -/
structure EnvelopeRange (last : Nat) (batch : List PointMutation) : Prop where
  pos : 1 ≤ batch.length
  count_le : batch.length ≤ maxPointBatchMutations
  last_lt : last + batch.length < 2 ^ 64
  first_eq : (envelopeAfter last batch).firstSequence.toNat = last + 1
  last_eq : ∃ sequence, (envelopeAfter last batch).lastSequence = .ok sequence ∧
    sequence.toNat = last + batch.length

theorem encoded_range (hlast : last < 2 ^ 64) {bytes : List UInt8}
    (h : encodePointBatch catalog (envelopeAfter last batch) = .ok bytes) :
    EnvelopeRange last batch := by
  have hrange : validateRange (envelopeAfter last batch).firstSequence batch.length catalog 0 =
      .ok () := by
    simp only [encodePointBatch, bind_ok, exists_unit] at h
    obtain ⟨-, -, hrange, -⟩ := h
    exact hrange
  have hchecks := hrange
  simp only [validateRange, bind_ok, exists_unit, require_ok] at hchecks
  obtain ⟨hcount, ⟨hfirst, -⟩, hroom⟩ := hchecks
  have hlt : last + 1 < 2 ^ 64 := by
    by_contra hge
    refine hfirst ?_
    have heq : last + 1 = 2 ^ 64 := by omega
    show UInt64.ofNat (last + 1) = 0
    rw [heq]
    rfl
  have hnat : (envelopeAfter last batch).firstSequence.toNat = last + 1 := by
    show (UInt64.ofNat (last + 1)).toNat = _
    rw [UInt64.toNat_ofNat', Nat.mod_eq_of_lt hlt]
  obtain ⟨sequence, hsequence, hvalue⟩ := last_sequence_ok hrange
  have hbatch : (envelopeAfter last batch).mutations.length = batch.length := rfl
  rw [hnat, hbatch] at hvalue
  rw [hnat] at hroom
  exact ⟨hcount.1, hcount.2, by omega, hnat, sequence, hsequence, by omega⟩

/-- Replay of the next batch of a history extends what a table shows. -/
theorem PointTable.Shows.replay (h : table.Shows catalog batches)
    (hwriter : table.writeFailed = false) {points : PointVersions}
    (hhistory : History catalog (batches ++ [batch]) points last)
    (hrange : EnvelopeRange table.lastSequence batch) :
    ∃ next, table.replay (envelopeAfter table.lastSequence batch) = .ok next ∧
      next.Shows catalog (batches ++ [batch]) ∧ next.writeFailed = false ∧
      next.checkpointSequence = table.checkpointSequence := by
  obtain ⟨shown, hbefore, hshown⟩ := h.history
  obtain ⟨earlier, sequence, hearlier, hbatch, -, happly, -⟩ := history_append.1 hhistory
  obtain ⟨rfl, rfl⟩ := hearlier.unique hbefore
  obtain ⟨found, hfound, -⟩ := (apply_mutations_shown hshown hbefore.before).1 _ happly
  have hoverlay : applyMutations table.catalog (table.overlay []) (table.lastSequence + 1) batch =
      .ok found := by
    rw [h.catalog_eq]
    exact hfound
  obtain ⟨states, hstates⟩ := prepare_from_returns hoverlay
  have hlt := hrange.last_lt
  have hpos := hrange.pos
  have hprepare : table.prepare (table.lastSequence + 1) batch = .ok states := by
    unfold prepare
    simp only [bind_ok, exists_unit, require_ok]
    exact ⟨⟨by omega, hrange.count_le, by omega, by omega⟩, hstates⟩
  obtain ⟨happlied, hvalid⟩ := publish_prepared h.valid hprepare
  obtain ⟨reached, hreached, hvalue⟩ := hrange.last_eq
  have hsame : reached.toNat = table.lastSequence + 1 + (batch.length - 1) := by omega
  rw [← hsame] at happlied hvalid
  refine ⟨_, ?_, h.applied hbatch happlied hvalid, happlied.failed_eq.trans hwriter,
    happlied.checkpoint_eq⟩
  have hcheckpoint := h.valid.checkpoint_le
  unfold PointTable.replay
  simp only [bind_ok, exists_unit, require_ok]
  refine ⟨by rw [hwriter]; exact Bool.false_ne_true, reached, hreached, ?_⟩
  rw [if_neg (by omega), hrange.first_eq]
  exact bind_ok.2 ⟨states, hprepare, rfl⟩

theorem PointTable.replay_covered (hwriter : table.writeFailed = false)
    (hrange : EnvelopeRange last batch)
    (hcovered : last + batch.length ≤ table.checkpointSequence) :
    table.replay (envelopeAfter last batch) = .ok table := by
  obtain ⟨reached, hreached, hvalue⟩ := hrange.last_eq
  unfold PointTable.replay
  simp only [bind_ok, exists_unit, require_ok]
  refine ⟨by rw [hwriter]; exact Bool.false_ne_true, reached, hreached, ?_⟩
  rw [if_pos (by omega)]
  rfl

end

end Akasha.Storage

import Akasha.Storage.PointHistory
import Akasha.Storage.PointRecovery
import Mathlib.Data.List.GetD

/-!
# The log of a history

The log of a collection holds the envelopes of some of its batches in their order, and it may end in
what is left of an envelope that was not written as a whole. `LogAt` says that the log goes on where
a checkpoint ends: the batches behind the checkpoint are all there up to some count. Of those that
the checkpoint covers any may be missing, since a log that was rotated starts anew, and one that
lost its end when it was covered already is appended to behind the gap. `replay_log` is the main
theorem: recovery comes to the table at the count and reads exactly the whole envelopes.
-/

namespace Akasha.Storage

open Lib PointTable List

/-- The envelope of a batch of a history. -/
def envelopeAt (catalog : FieldCatalog) (batches : List (List PointMutation)) (index : Nat) :
    PointWalBatch :=
  envelopeAfter (sequenceAfter catalog (batches.take index)) (batches.getD index [])

/-- The envelopes of some batches of a history one after another. -/
def logBytes (catalog : FieldCatalog) (batches : List (List PointMutation)) :
    List Nat → Except String (List UInt8)
  | [] => pure []
  | index :: indices => do
      let bytes ← encodePointBatch catalog (envelopeAt catalog batches index)
      let more ← logBytes catalog batches indices
      pure (bytes ++ more)

/-- What may be left of an envelope that was not written as a whole. -/
def Torn (catalog : FieldCatalog) (tail : List UInt8) : Prop :=
  tail = [] ∨ ∃ (batch : PointWalBatch) (bytes : List UInt8), batch.Constructed ∧
    encodePointBatch catalog batch = .ok bytes ∧ tail <+: bytes ∧ tail.length < bytes.length

variable {batch : List PointMutation}

section

variable {catalog : FieldCatalog} {batches more : List (List PointMutation)} {indices : List Nat}

theorem log_bytes_append {front back : List Nat} {bytes bytes' : List UInt8}
    (h : logBytes catalog batches front = .ok bytes)
    (h' : logBytes catalog batches back = .ok bytes') :
    logBytes catalog batches (front ++ back) = .ok (bytes ++ bytes') := by
  induction front generalizing bytes with
  | nil =>
      obtain rfl := pure_ok.1 h
      exact h'
  | cons index front ih =>
      simp only [logBytes, bind_ok, pure_ok] at h
      obtain ⟨first, hfirst, rest, hrest, rfl⟩ := h
      simp only [cons_append, logBytes, bind_ok, pure_ok]
      exact ⟨first, hfirst, rest ++ bytes', ih hrest, (append_assoc _ _ _).symm⟩

theorem envelope_at_append {index : Nat} (h : index < batches.length) :
    envelopeAt catalog (batches ++ more) index = envelopeAt catalog batches index := by
  unfold envelopeAt
  rw [take_append_of_le_length h.le, getD_eq_getElem?_getD, getElem?_append_left h,
    ← getD_eq_getElem?_getD]

theorem envelope_at_last :
    envelopeAt catalog (batches ++ [batch]) batches.length =
      envelopeAfter (sequenceAfter catalog batches) batch := by
  simp [envelopeAt]

theorem log_bytes_extend (h : ∀ index ∈ indices, index < batches.length) :
    logBytes catalog (batches ++ more) indices = logBytes catalog batches indices := by
  induction indices with
  | nil => rfl
  | cons index indices ih =>
      rw [forall_mem_cons] at h
      rw [logBytes, logBytes, envelope_at_append h.1, ih h.2]

theorem torn_nil (catalog : FieldCatalog) : Torn catalog [] := .inl rfl

variable {bytes : List UInt8}

theorem torn_or_whole {batch : PointWalBatch} (hconstructed : batch.Constructed)
    (hencode : encodePointBatch catalog batch = .ok bytes) (count : Nat) :
    bytes.take count = bytes ∨ Torn catalog (bytes.take count) := by
  by_cases hle : bytes.length ≤ count
  · exact .inl (take_of_length_le hle)
  · refine .inr (.inr ⟨batch, bytes, hconstructed, hencode, take_prefix count bytes, ?_⟩)
    rw [length_take]
    omega

theorem length_log_bytes (h : logBytes catalog batches indices = .ok bytes) :
    indices.length ≤ bytes.length := by
  induction indices generalizing bytes with
  | nil => exact Nat.zero_le _
  | cons index indices ih =>
      simp only [logBytes, bind_ok, pure_ok] at h
      obtain ⟨first, hfirst, rest, hrest, rfl⟩ := h
      have hpos : 1 ≤ first.length := by
        simp only [encodePointBatch, bind_ok, exists_unit, pure_ok] at hfirst
        obtain ⟨crc, -, -, bodies, -, rfl⟩ := hfirst
        simp [withChecksum, walHeader, walMagic]
      have hmore := ih hrest
      rw [length_cons, length_append]
      omega

/-- The batches whose envelopes a log holds, which goes on behind `covered` batches up to a
count. -/
structure Selects (covered count : Nat) (indices : List Nat) : Prop where
  sorted : indices.Pairwise (· < ·)
  below : ∀ index ∈ indices, index < count
  behind : ∀ index, covered ≤ index → index < count → index ∈ indices

/-- A log of whole envelopes. -/
structure WholeLog (catalog : FieldCatalog) (batches : List (List PointMutation))
    (covered count : Nat) (body : List UInt8) : Prop where
  covered_le : covered ≤ count
  count_le : count ≤ batches.length
  encoded : ∃ indices, Selects covered count indices ∧ logBytes catalog batches indices = .ok body

/-- A log that may end in a torn envelope. -/
def LogAt (catalog : FieldCatalog) (batches : List (List PointMutation)) (covered count : Nat)
    (content : List UInt8) : Prop :=
  ∃ body tail, WholeLog catalog batches covered count body ∧ Torn catalog tail ∧
    content = body ++ tail

variable {covered count : Nat} {body content : List UInt8}

theorem WholeLog.log_at (h : WholeLog catalog batches covered count body) :
    LogAt catalog batches covered count body :=
  ⟨body, [], h, torn_nil catalog, (append_nil body).symm⟩

theorem LogAt.covered_le (h : LogAt catalog batches covered count content) : covered ≤ count := by
  obtain ⟨body, tail, hwhole, -⟩ := h
  exact hwhole.covered_le

theorem LogAt.count_le (h : LogAt catalog batches covered count content) :
    count ≤ batches.length := by
  obtain ⟨body, tail, hwhole, -⟩ := h
  exact hwhole.count_le

theorem whole_nil (h : covered ≤ batches.length) : WholeLog catalog batches covered covered [] where
  covered_le := le_rfl
  count_le := h
  encoded := by
    refine ⟨[], ⟨List.Pairwise.nil, fun index hindex => absurd hindex not_mem_nil,
      fun index hle hlt => ?_⟩, rfl⟩
    omega

/-- A batch that is appended to the log. -/
theorem WholeLog.snoc (h : WholeLog catalog batches covered batches.length body)
    (hencode : encodePointBatch catalog (envelopeAfter (sequenceAfter catalog batches) batch) =
      .ok bytes) :
    WholeLog catalog (batches ++ [batch]) covered (batches ++ [batch]).length (body ++ bytes) := by
  have hlength : (batches ++ [batch]).length = batches.length + 1 := by simp
  obtain ⟨indices, hselects, hbody⟩ := h.encoded
  refine ⟨by have := h.covered_le; omega, le_rfl, indices ++ [batches.length], ⟨?_, ?_, ?_⟩, ?_⟩
  · refine pairwise_append.2 ⟨hselects.sorted, pairwise_singleton _ _, ?_⟩
    intro index hindex last hlast
    rw [mem_singleton.1 hlast]
    exact hselects.below index hindex
  · intro index hindex
    rcases mem_append.1 hindex with hmem | hmem
    · have := hselects.below index hmem
      omega
    · rw [mem_singleton.1 hmem, hlength]
      exact Nat.lt_succ_self _
  · intro index hle hlt
    by_cases hlast : index < batches.length
    · exact mem_append_left _ (hselects.behind index hle hlast)
    · exact mem_append_right _ (mem_singleton.2 (by omega))
  · refine log_bytes_append ((log_bytes_extend hselects.below).trans hbody) ?_
    rw [logBytes, envelope_at_last, hencode]
    simp only [logBytes, bind_ok, pure_ok]
    exact ⟨bytes, rfl, [], rfl, append_nil bytes⟩

theorem WholeLog.extend (h : WholeLog catalog batches covered count body)
    (more : List (List PointMutation)) :
    WholeLog catalog (batches ++ more) covered count body := by
  obtain ⟨indices, hselects, hbody⟩ := h.encoded
  refine ⟨h.covered_le, ?_, indices, hselects, ?_⟩
  · rw [length_append]
    exact Nat.le_add_right_of_le h.count_le
  · rw [log_bytes_extend fun index hindex => (hselects.below index hindex).trans_le h.count_le]
    exact hbody

theorem WholeLog.take (h : WholeLog catalog batches covered count body) {length : Nat}
    (hcount : count ≤ length) : WholeLog catalog (batches.take length) covered count body := by
  obtain ⟨indices, hselects, hbody⟩ := h.encoded
  have hle : count ≤ (batches.take length).length := by
    rw [length_take]
    exact le_min hcount h.count_le
  refine ⟨h.covered_le, hle, indices, hselects, ?_⟩
  rw [← hbody]
  nth_rewrite 2 [← take_append_drop length batches]
  exact (log_bytes_extend fun index hindex => (hselects.below index hindex).trans_le hle).symm

theorem WholeLog.later (h : WholeLog catalog batches covered count body) {covered' : Nat}
    (hle : covered ≤ covered') (hlength : covered' ≤ batches.length) :
    WholeLog catalog batches covered' (max covered' count) body := by
  obtain ⟨indices, hselects, hbody⟩ := h.encoded
  refine ⟨le_max_left _ _, max_le hlength h.count_le, indices, ⟨hselects.sorted, ?_, ?_⟩, hbody⟩
  · exact fun index hindex => (hselects.below index hindex).trans_le (le_max_right _ _)
  · intro index hindex hlt
    exact hselects.behind index (hle.trans hindex) (by omega)

theorem LogAt.extend (h : LogAt catalog batches covered count content)
    (more : List (List PointMutation)) : LogAt catalog (batches ++ more) covered count content := by
  obtain ⟨body, tail, hwhole, hrest⟩ := h
  exact ⟨body, tail, hwhole.extend more, hrest⟩

theorem LogAt.take (h : LogAt catalog batches covered count content) {length : Nat}
    (hcount : count ≤ length) : LogAt catalog (batches.take length) covered count content := by
  obtain ⟨body, tail, hwhole, hrest⟩ := h
  exact ⟨body, tail, hwhole.take hcount, hrest⟩

theorem LogAt.later (h : LogAt catalog batches covered count content) {covered' : Nat}
    (hle : covered ≤ covered') (hlength : covered' ≤ batches.length) :
    LogAt catalog batches covered' (max covered' count) content := by
  obtain ⟨body, tail, hwhole, hrest⟩ := h
  exact ⟨body, tail, hwhole.later hle hlength, hrest⟩

/-- An envelope that is being written behind a log is whole in the end and torn before. -/
theorem WholeLog.grown (h : WholeLog catalog batches covered batches.length body)
    (hbatch : BatchConstructed batch)
    (hencode : encodePointBatch catalog (envelopeAfter (sequenceAfter catalog batches) batch) =
      .ok bytes) (written : Nat) :
    ∃ count, batches.length ≤ count ∧
      LogAt catalog (batches ++ [batch]) covered count (body ++ bytes.take written) := by
  have hconstructed : (envelopeAfter (sequenceAfter catalog batches) batch).Constructed := hbatch
  rcases torn_or_whole hconstructed hencode written with hall | htorn
  · rw [hall]
    exact ⟨_, by simp, (h.snoc hencode).log_at⟩
  · exact ⟨batches.length, le_rfl, body, bytes.take written, h.extend [batch], htorn, rfl⟩

end

/-! ## Reading envelopes -/

namespace FieldWalReader

theorem ensure_available_source {chunk : Nat → Nat} {buffer filled : WalReadBuffer}
    {count accepted : Nat} (h : buffer.ensureAvailable chunk count accepted = .ok filled) :
    filled.source = buffer.source := by
  simp only [WalReadBuffer.ensureAvailable, bind_ok, exists_unit, require_ok] at h
  obtain ⟨-, -, h⟩ := h
  split at h
  · rw [← pure_ok.1 h]
  · obtain ⟨received, -, hfilled⟩ := bind_ok.1 h
    rw [← pure_ok.1 hfilled]

theorem consume_source {buffer rest : WalReadBuffer} {count : Nat}
    (h : buffer.consume count = .ok rest) : rest.source = buffer.source := by
  simp only [WalReadBuffer.consume, bind_ok, exists_unit, pure_ok] at h
  obtain ⟨-, rfl⟩ := h
  rfl

/-- What `read_next` keeps of the reader. -/
theorem read_next_keeps {chunk : Nat → Nat} {reader rest : FieldWalReader}
    {envelope : Option RecoveredWalEnvelope} (h : reader.readNext chunk = .ok (envelope, rest)) :
    rest.input.source = reader.input.source ∧ rest.failed = false ∧
      (envelope = none → rest.validLength = reader.validLength ∧ rest.done = true) := by
  simp only [readNext, bind_ok, exists_unit, require_ok] at h
  obtain ⟨hfailed, h⟩ := h
  split at h
  · obtain ⟨rfl, rfl⟩ := Prod.mk.inj (pure_ok.1 h)
    exact ⟨rfl, hfailed, fun _ => ⟨rfl, rfl⟩⟩
  · simp only [bind_ok] at h
    obtain ⟨headed, hheaded, size, -, h⟩ := h
    have hsource := ensure_available_source hheaded
    split at h
    · obtain ⟨rfl, rfl⟩ := Prod.mk.inj (pure_ok.1 h)
      exact ⟨hsource, hfailed, fun _ => ⟨rfl, rfl⟩⟩
    · simp only [bind_ok, pure_ok, Prod.mk.injEq] at h
      obtain ⟨filled, hfilled, decoded, -, input, hinput, rfl, rfl⟩ := h
      refine ⟨((consume_source hinput).trans (ensure_available_source hfilled)).trans hsource,
        hfailed, ?_⟩
      intro hcontra
      cases hcontra

theorem read_next_done {chunk : Nat → Nat} {reader : FieldWalReader} (hdone : reader.done = true)
    (hfailed : reader.failed = false) : reader.readNext chunk = .ok (none, reader) := by
  have hsame : { reader with done := true } = reader := by
    obtain ⟨input, catalog, crc, previous, done, failed, valid⟩ := reader
    obtain rfl : done = true := hdone
    rfl
  simp only [readNext, bind_ok, exists_unit, require_ok]
  rw [if_pos (.inl hdone), hsame]
  exact ⟨hfailed, rfl⟩

section

variable (chunk : Nat → Nat) {catalog : FieldCatalog} {crc : Nat} {reader : FieldWalReader}

/-- Nothing of a torn envelope is read. -/
theorem read_next_tail (hfits : CatalogFits catalog)
    (hcrc : fieldCatalogChecksum catalog = .ok crc) (hcatalog : reader.catalog = catalog)
    {tail : List UInt8} (hready : reader.Ready tail) (htorn : Torn catalog tail) :
    ∃ rest, reader.readNext chunk = .ok (none, rest) ∧ rest.validLength = reader.validLength := by
  have hkeeps : ∀ rest, reader.readNext chunk = .ok (none, rest) →
      ∃ rest, reader.readNext chunk = .ok (none, rest) ∧ rest.validLength = reader.validLength :=
    fun rest hrest => ⟨rest, hrest, ((read_next_keeps hrest).2.2 rfl).1⟩
  by_cases hshort : tail.length < 32
  · obtain ⟨rest, hrest⟩ := read_next_short chunk hready hshort
    exact hkeeps rest hrest
  · rcases htorn with rfl | ⟨batch, bytes, hconstructed, hencode, hprefix, hlt⟩
    · exact absurd (by decide) hshort
    · have hrecoverable : Recoverable catalog crc bytes (.point batch) :=
        recoverable_encode hfits hcrc hconstructed hencode
          (by intro envelope hcontra; cases hcontra)
      have hfront : tail.take 32 = bytes.take 32 := by
        rw [prefix_iff_eq_take.1 hprefix, take_take, Nat.min_eq_left (by omega)]
      have hcongr := header_congr (denseDimension catalog) hfront (by omega)
        hrecoverable.length_ge
      have hsize : sizeOf (versionOf tail) (denseDimension reader.catalog) tail =
          .ok bytes.length := by
        rw [hcatalog, hcongr.1, hcongr.2]
        exact hrecoverable.size
      obtain ⟨rest, hrest⟩ := read_next_torn chunk hready (by omega) hsize hlt
      exact hkeeps rest hrest

/-- The next envelope of a log. -/
theorem read_next_envelope (hfits : CatalogFits catalog)
    (hcrc : fieldCatalogChecksum catalog = .ok crc) (hcatalog : reader.catalog = catalog)
    (hreader : reader.catalogCrc = crc) {last : Nat} (hlast : last < 2 ^ 64)
    (hprevious : reader.previousSequence.toNat ≤ last) (hbatch : BatchConstructed batch)
    {bytes more : List UInt8}
    (hencode : encodePointBatch catalog (envelopeAfter last batch) = .ok bytes)
    (hready : reader.Ready (bytes ++ more)) :
    ∃ rest, reader.readNext chunk = .ok (some (.point (envelopeAfter last batch)), rest) ∧
      rest.Ready more ∧ rest.catalog = catalog ∧ rest.catalogCrc = crc ∧
      rest.previousSequence.toNat ≤ last + batch.length ∧
      rest.validLength = reader.validLength + bytes.length := by
  have hconstructed : (envelopeAfter last batch).Constructed := hbatch
  have hrange := encoded_range hlast hencode
  have hrecoverable : Recoverable catalog crc bytes (.point (envelopeAfter last batch)) :=
    recoverable_encode hfits hcrc hconstructed hencode (by intro envelope hcontra; cases hcontra)
  have hmember : ∀ sequence ∈ (FieldWalItem.point (envelopeAfter last batch)).sequences,
      last < sequence ∧ sequence ≤ last + batch.length := by
    intro sequence hsequence
    obtain ⟨index, hindex, rfl⟩ := mem_map.1 hsequence
    have hlt : index < batch.length := mem_range.1 hindex
    rw [hrange.first_eq]
    omega
  obtain ⟨reached, hdecode, hreached⟩ := hrecoverable.decode reader hcatalog hreader
    fun sequence hsequence => hprevious.trans_lt
      (hmember sequence (mem_of_mem_head? hsequence)).1
  obtain ⟨rest, hnext, hrest, hcatalog', hcrc', hlast'⟩ := read_next_whole chunk hready
    hrecoverable.length_ge (by rw [hcatalog]; exact hrecoverable.size)
    (by rw [hcatalog]; exact hdecode)
  refine ⟨rest, hnext, hrest, hcatalog'.trans hcatalog, hcrc'.trans hreader, ?_, ?_⟩
  · rw [hlast']
    exact (hmember _ hreached).2
  · -- The reader stands as far before the end of the file as what is left is long.
    have hbefore := hready.length_eq
    have hafter := hrest.length_eq
    have hle := hready.length_le
    have hle' := hrest.length_le
    rw [(read_next_keeps hnext).1] at hafter hle'
    rw [length_append] at hbefore
    omega

end

end FieldWalReader

/-! ## Replay -/

section

variable (chunk : Nat → Nat) {catalog : FieldCatalog} {crc covered reached count last : Nat}
  {batches : List (List PointMutation)} {indices : List Nat} {points : PointVersions}

variable {table : PointTable}

/-- One envelope of a log, on a table that shows the batches that the checkpoint covers or those
before the envelope, whichever are more. -/
theorem replay_next (hall : History catalog batches points last) {index : Nat}
    (hindex : index < batches.length) (hreached : reached ≤ index)
    (hnext : covered ≤ index → index ≤ max covered reached)
    (hshows : table.Shows catalog (batches.take (max covered reached)))
    (hwriter : table.writeFailed = false)
    (hcheckpoint : table.checkpointSequence = sequenceAfter catalog (batches.take covered))
    (hrange : EnvelopeRange (sequenceAfter catalog (batches.take index)) (batches.getD index [])) :
    ∃ next, table.replay (envelopeAt catalog batches index) = .ok next ∧
      next.Shows catalog (batches.take (max covered (index + 1))) ∧
      next.writeFailed = false ∧ next.checkpointSequence = table.checkpointSequence := by
  have htake : batches.take (index + 1) = batches.take index ++ [batches.getD index []] := by
    rw [take_add_one, getElem?_eq_getElem hindex, getD_eq_getElem _ _ hindex]
    rfl
  by_cases hcovered : index < covered
  · -- The batch is among those of the checkpoint.
    have hsequences : sequenceAfter catalog (batches.take index) + (batches.getD index []).length ≤
        table.checkpointSequence := by
      have hle := sequence_after_take_le catalog (batches.take covered) (index + 1)
      rw [take_take, Nat.min_eq_left (by omega), htake, sequence_after_append] at hle
      rw [hcheckpoint]
      simpa using hle
    refine ⟨table, replay_covered hwriter hrange hsequences, ?_, hwriter, rfl⟩
    rw [Nat.max_eq_left (by omega)] at hshows ⊢
    exact hshows
  · have heq : max covered reached = index := by
      have := hnext (by omega)
      omega
    rw [heq] at hshows
    obtain ⟨points', last', hhistory⟩ := hall.take (index + 1)
    rw [htake] at hhistory
    have hlast := hshows.last_eq
    unfold envelopeAt
    rw [← hlast] at hrange ⊢
    obtain ⟨next, hreplay, hshown, hfailed, hkept⟩ := hshows.replay hwriter hhistory hrange
    refine ⟨next, hreplay, ?_, hfailed, hkept⟩
    rw [Nat.max_eq_right (by omega), htake]
    exact hshown

/-- Replay of the envelopes from some batch on. -/
theorem replay_envelopes (hfits : CatalogFits catalog)
    (hcrc : fieldCatalogChecksum catalog = .ok crc) (hall : History catalog batches points last)
    (hlast : last < 2 ^ 64) (hcount : count ≤ batches.length) (hcovered : covered ≤ count)
    (hreached : reached ≤ count) (hselects : Selects (max covered reached) count indices)
    (hfrom : ∀ index ∈ indices, reached ≤ index) {bytes tail : List UInt8}
    (hlog : logBytes catalog batches indices = .ok bytes) (htorn : Torn catalog tail)
    (skipLegacy : Bool) {rounds : Nat} (hrounds : indices.length < rounds)
    {reader : FieldWalReader} (hcatalog : reader.catalog = catalog)
    (hreader : reader.catalogCrc = crc)
    (hprevious : reader.previousSequence.toNat ≤ sequenceAfter catalog (batches.take reached))
    (hready : reader.Ready (bytes ++ tail))
    (hshows : table.Shows catalog (batches.take (max covered reached)))
    (hwriter : table.writeFailed = false)
    (hcheckpoint : table.checkpointSequence = sequenceAfter catalog (batches.take covered)) :
    ∃ out rest, replayEnvelopes chunk skipLegacy rounds reader table = .ok (out, rest) ∧
      out.Shows catalog (batches.take count) ∧ out.writeFailed = false ∧
      out.checkpointSequence = table.checkpointSequence ∧
      rest.validLength = reader.validLength + bytes.length := by
  induction indices generalizing reached bytes rounds reader table with
  | nil =>
      obtain ⟨rounds, rfl⟩ := Nat.exists_eq_add_one.2 hrounds
      obtain rfl := pure_ok.1 hlog
      obtain ⟨rest, hnext, hvalid⟩ := FieldWalReader.read_next_tail chunk hfits hcrc
        hcatalog hready htorn
      have hend : max covered reached = count := by
        by_contra hne
        exact absurd (hselects.behind (max covered reached) le_rfl (by omega)) not_mem_nil
      refine ⟨table, rest, ?_, hend ▸ hshows, hwriter, rfl, by rw [hvalid]; rfl⟩
      rw [replayEnvelopes, hnext]
      rfl
  | cons index indices ih =>
      obtain ⟨rounds, rfl⟩ := Nat.exists_eq_add_one.2 ((Nat.zero_le _).trans_lt hrounds)
      simp only [logBytes, bind_ok, pure_ok] at hlog
      obtain ⟨first, hfirst, more, hmore, rfl⟩ := hlog
      have hlt : index < count := hselects.below index mem_cons_self
      have hindex : index < batches.length := hlt.trans_le hcount
      have hle : reached ≤ index := hfrom index mem_cons_self
      obtain ⟨hlater, hsorted⟩ := pairwise_cons.1 hselects.sorted
      have hnext : covered ≤ index → index ≤ max covered reached := by
        intro hbehind
        rcases mem_cons.1 (hselects.behind (max covered reached) le_rfl (by omega)) with
          heq | hmem
        · exact heq.ge
        · exact (hlater _ hmem).le
      have hsequence : sequenceAfter catalog (batches.take index) < 2 ^ 64 := by
        have hbound := sequence_after_take_le catalog batches index
        rw [← hall.last_eq] at hbound
        exact hbound.trans_lt hlast
      have hprevious' : reader.previousSequence.toNat ≤
          sequenceAfter catalog (batches.take index) := by
        have hbound := sequence_after_take_le catalog (batches.take index) reached
        rw [take_take, Nat.min_eq_left hle] at hbound
        exact hprevious.trans hbound
      have hbatch : BatchConstructed (batches.getD index []) := by
        rw [getD_eq_getElem _ _ hindex]
        exact hall.constructed _ (getElem_mem hindex)
      rw [append_assoc] at hready
      obtain ⟨later, hread, hready', hcatalog', hreader', hreached', hvalid⟩ :=
        FieldWalReader.read_next_envelope chunk hfits hcrc hcatalog hreader hsequence
          hprevious' hbatch hfirst hready
      obtain ⟨next, hreplay, hshown, hfailed, hkept⟩ := replay_next hall hindex hle hnext hshows
        hwriter hcheckpoint (encoded_range hsequence hfirst)
      have htake : sequenceAfter catalog (batches.take (index + 1)) =
          sequenceAfter catalog (batches.take index) + (batches.getD index []).length := by
        rw [take_add_one, getElem?_eq_getElem hindex, getD_eq_getElem _ _ hindex,
          sequence_after_append]
        rfl
      rw [← htake] at hreached'
      have hselects' : Selects (max covered (index + 1)) count indices := by
        refine ⟨hsorted, fun i hi => hselects.below i (mem_cons_of_mem _ hi),
          fun i hi hi' => ?_⟩
        rcases mem_cons.1 (hselects.behind i (by omega) hi') with heq | hmem
        · omega
        · exact hmem
      obtain ⟨out, rest, hout, hend, houtWriter, houtKept, houtValid⟩ := ih hlt hselects' hlater
        hmore (by simpa using hrounds) hcatalog' hreader' hreached' hready' hshown hfailed
        (hkept.trans hcheckpoint)
      refine ⟨out, rest, ?_, hend, houtWriter, houtKept.trans hkept, ?_⟩
      · rw [replayEnvelopes, hread]
        show (table.replay _ >>= replayEnvelopes chunk skipLegacy rounds later) = _
        exact bind_ok.2 ⟨next, hreplay, hout⟩
      · rw [houtValid, hvalid, length_append, Nat.add_assoc]

/-- Recovery of a log comes to the table at its count. -/
theorem replay_log (hfits : CatalogFits catalog) (hcrc : fieldCatalogChecksum catalog = .ok crc)
    (hall : History catalog batches points last) (hlast : last < 2 ^ 64) {body tail : List UInt8}
    (hlog : WholeLog catalog batches covered count body) (htorn : Torn catalog tail)
    (skipLegacy : Bool) {rounds : Nat} (hrounds : body.length < rounds) {reader : FieldWalReader}
    (hcatalog : reader.catalog = catalog) (hreader : reader.catalogCrc = crc)
    (hprevious : reader.previousSequence.toNat ≤ catalog.legacyCutoverSequence)
    (hready : reader.Ready (body ++ tail)) (hshows : table.Shows catalog (batches.take covered))
    (hwriter : table.writeFailed = false)
    (hcheckpoint : table.checkpointSequence = sequenceAfter catalog (batches.take covered)) :
    ∃ out rest, replayEnvelopes chunk skipLegacy rounds reader table = .ok (out, rest) ∧
      out.Shows catalog (batches.take count) ∧ out.writeFailed = false ∧
      out.checkpointSequence = table.checkpointSequence ∧
      rest.validLength = reader.validLength + body.length := by
  obtain ⟨indices, hselects, hbody⟩ := hlog.encoded
  have hstart : Selects (max covered 0) count indices := by rwa [Nat.max_zero]
  rw [← Nat.max_zero covered] at hshows
  exact replay_envelopes chunk hfits hcrc hall hlast hlog.count_le hlog.covered_le
    (Nat.zero_le count) hstart (fun index _ => Nat.zero_le index) hbody htorn skipLegacy
    ((length_log_bytes hbody).trans_lt hrounds) hcatalog hreader hprevious hready hshows hwriter
    hcheckpoint

end

end Akasha.Storage

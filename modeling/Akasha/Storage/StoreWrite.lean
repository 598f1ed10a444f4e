import Akasha.Storage.StoreOpen

/-!
# Batches of an open store

`applyBatch` on a store that shows what its directory keeps. `wp_apply_batch` is the main theorem: a
batch is committed and durable, or refused and nothing changed, or the store writes no more and the
directory keeps the history with or without the batch.
-/

namespace Akasha.Storage

open Lib Lib.Exec
open Durable (VolumeM Done Cut)

/-- What a commit says of a batch behind others. -/
def commitOf (catalog : FieldCatalog) (batches : List (List PointMutation))
    (batch : List PointMutation) : PointCommit :=
  ⟨sequenceAfter catalog batches + 1, sequenceAfter catalog batches + batch.length, batch.length⟩

/-- A store that writes no more. It still shows a history. -/
structure Broken (c : Collection) (batches : List (List PointMutation)) (store : PointStore) :
    Prop where
  failed : store.ioFailed = true ∨ store.table.writeFailed = true
  shows : store.table.Shows c.catalog batches
  locked : store.locked = true

/-- The directory of a store, under the same schedule. -/
def volumeOf (s : Scheduled Desk) : Scheduled Volume :=
  ⟨s.state.volume, s.verdicts⟩

/-- A store over another directory. -/
def withVolume (s : Scheduled Desk) (inner : Scheduled Volume) : Scheduled Desk :=
  ⟨{ s.state with volume := inner.state }, inner.verdicts⟩

section

variable {c : Collection} {batches : List (List PointMutation)} {sure covered : Nat}
  {s : Scheduled Desk} {names : List String} {volume volume' : Volume}

theorem wp_on_volume {α : Type} {x : VolumeM α} {Q : α → Scheduled Desk → Prop}
    {E : Fault String → Scheduled Desk → Prop} :
    wp (PointStore.onVolume x) Q E s ↔ wp x (fun a inner => Q a (withVolume s inner))
      (fun e inner => E e (withVolume s inner)) (volumeOf s) :=
  ScheduleM.wp_within

@[simp] theorem wp_modify_store {change : PointStore → PointStore}
    {Q : Unit → Scheduled Desk → Prop} {E : Fault String → Scheduled Desk → Prop} :
    wp (PointStore.modifyStore change) Q E s ↔
      Q () { s with state := { s.state with store := change s.state.store } } :=
  ScheduleM.wp_modify

theorem Mentioned.before {name : String} (h : Mentioned c volume' name)
    (hquiet : Volume.Quiet names volume volume') (hmanifest : manifestFile ∉ names) :
    Mentioned c volume name := by
  obtain ⟨manifest, bytes, hentry, hrest⟩ := h
  exact ⟨manifest, bytes, hquiet.entries hmanifest _ hentry, hrest⟩

theorem PointTable.Shows.flagged {table : PointTable} (h : table.Shows c.catalog batches)
    (failed : Bool) : PointTable.Shows { table with writeFailed := failed } c.catalog batches :=
  ⟨⟨h.valid.version_eq, h.valid.cutover_le, h.valid.checkpoint_le, h.valid.ids_nodup,
    h.valid.versions, h.valid.live_eq⟩, h.catalog_eq, h.last_lt, h.history⟩

theorem Obsolete.plain (h : Obsolete c volume names) {changed : List String}
    (hquiet : Volume.Quiet changed volume volume') (hchanged : ∀ name ∈ changed, ¬ PointName name)
    (hmanifest : manifestFile ∉ changed) : Obsolete c volume' names := by
  intro name hname
  obtain ⟨hkind, hpoint⟩ := h name hname
  refine ⟨hkind, fun hnamed => ?_⟩
  obtain ⟨hnow, hmentioned⟩ := hpoint hnamed
  rw [hquiet.now name fun hmem => hchanged name hmem hnamed]
  exact ⟨hnow, fun hlater => hmentioned (hlater.before hquiet hmanifest)⟩

theorem Running.writable {desk : Desk} (h : Running c batches sure covered desk) :
    desk.store.ensureWritable = .ok () := by
  unfold PointStore.ensureWritable PointStore.ensureOpen
  simp only [bind_ok, exists_unit, require_ok]
  refine ⟨h.locked, fun hfailed => ?_⟩
  rcases hfailed with hfailed | hfailed
  · rw [h.healthy] at hfailed
    cases hfailed
  · rw [h.writer] at hfailed
    cases hfailed

/-- A batch is committed, or refused, or it is uncertain and the store is broken. -/
theorem wp_apply_batch (h : Running c batches sure covered s.state)
    {mutations : List PointMutation} (hbatch : BatchConstructed mutations) :
    wp (PointStore.applyBatch mutations)
      (fun commit s' => commit = commitOf c.catalog batches mutations ∧
        Running c (batches ++ [mutations]) (batches ++ [mutations]).length covered s'.state ∧
        s.Reaches s')
      (fun e s' => (∃ message, e = .raised message) ∧ s' = s ∨
        Halted s e ∧ Broken c batches s'.state.store ∧
          (Kept c (batches ++ [mutations]) sure s'.state.volume ∨
            Kept c batches sure s'.state.volume)) s := by
  have hshows := h.shows
  have hcatalog : s.state.store.table.catalog = c.catalog := hshows.catalog_eq
  unfold PointStore.applyBatch
  rw [wp_bind, ScheduleM.wp_get, wp_bind]
  refine ScheduleM.wp_of_except_ok h.writable ?_
  dsimp only
  cases hattempt : s.state.store.table.attempt ⟨mutations, .ok ()⟩ with
  | mk next outcome =>
      cases outcome with
      | error message => exact .inl ⟨⟨message, rfl⟩, rfl⟩
      | ok commit =>
          cases hencode : encodePointBatch s.state.store.table.catalog
              (s.state.store.table.envelope mutations) with
          | error message => exact .inl ⟨⟨message, rfl⟩, rfl⟩
          | ok bytes =>
              obtain ⟨happlied, -, -, -, hcommit⟩ :=
                PointTable.append_batch_ok hshows.valid hattempt
              have hnext : next.Shows c.catalog (batches ++ [mutations]) :=
                hshows.attempt hbatch hattempt
              have hhistory : ∃ points last,
                  History c.catalog (batches ++ [mutations]) points last ∧ last < 2 ^ 64 := by
                obtain ⟨points, hpoints, -⟩ := hnext.history
                exact ⟨points, _, hpoints, hnext.last_lt⟩
              have hbytes : encodePointBatch c.catalog
                  (envelopeAfter (sequenceAfter c.catalog batches) mutations) = .ok bytes := by
                rw [← hshows.last_eq, ← hcatalog]
                exact hencode
              obtain ⟨file, hfile, -⟩ := h.settled.log
              show wp (do
                PointStore.modifyStore fun store =>
                  { store with table := { s.state.store.table with writeFailed := true } }
                PointStore.onVolume (Durable.appendFileSync walFile bytes)
                PointStore.modifyStore fun store => { store with table := next }
                pure commit) _ _ s
              rw [wp_bind, wp_modify_store, wp_bind, wp_on_volume]
              refine wp_mono (Durable.wp_append_file_sync hfile bytes) (fun _ inner hpost => ?_)
                fun e inner hpost => ?_
              · obtain ⟨hnow, hsince, hdone⟩ := hpost
                have hsettled := h.settled.appended hbytes hhistory hfile hnow hsince hdone.quiet
                rw [wp_bind, wp_modify_store, wp_pure]
                refine ⟨?_, ⟨hsettled, h.catalog_eq, hnext, ?_, h.locked, h.healthy,
                  h.checkpoint_eq, ?_, ?_⟩, hdone.reaches⟩
                · rw [hcommit, commitOf, hnext.last_eq, hshows.last_eq, sequence_after_append]
                  rfl
                · exact happlied.failed_eq.trans h.writer
                · rw [List.take_append_of_le_length h.settled.covered_le]
                  exact happlied.checkpoint_eq.trans_le h.checkpoint_le
                · exact h.retired.plain hdone.quiet wal_plain wal_other.2.1
              · obtain ⟨⟨written, hgrown⟩, hcut⟩ := hpost
                refine .inr ⟨⟨hcut.halted.struck, hcut.halted.restless⟩,
                  ⟨.inr rfl, hshows.flagged true, h.locked⟩, ?_⟩
                exact h.settled.torn hbatch hbytes hhistory hfile hgrown hcut.quiet

end

end Akasha.Storage

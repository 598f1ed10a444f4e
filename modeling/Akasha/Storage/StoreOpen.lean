import Akasha.Storage.StoreInvariant

/-!
# Opening a collection

`PointStore.open` repairs what it recovers: it publishes the identity of a new collection, cuts a
torn envelope from the log, removes files of jobs that nobody refers to and creates a log. `Opened`
is the directory between these steps. `wp_open` is the main theorem: halted anywhere, the directory
keeps its history; not halted, the store shows all of it, unless a graph cannot be opened.
-/

namespace Akasha.Storage

open Lib Lib.Exec List ScheduleM
open Durable (VolumeM Done Cut)

/-- Names of files that may be removed: graphs, and segments that no manifest mentions. -/
def Obsolete (c : Collection) (volume : Volume) (names : List String) : Prop :=
  ∀ name ∈ names, (PointName name ∨ GraphName name) ∧
    (PointName name → volume.now name ≠ none ∧ ¬ Mentioned c volume name)

/-- The store and its directory, ready for the next operation. -/
structure Running (c : Collection) (batches : List (List PointMutation)) (sure covered : Nat)
    (desk : Desk) : Prop where
  settled : Settled c batches sure covered desk.store.manifest desk.volume
  catalog_eq : desk.store.catalog = c.catalog
  shows : desk.store.table.Shows c.catalog batches
  writer : desk.store.table.writeFailed = false
  locked : desk.store.locked = true
  healthy : desk.store.ioFailed = false
  checkpoint_eq : desk.store.pointCheckpoint = desk.store.manifest.isSome
  checkpoint_le : desk.store.table.checkpointSequence ≤
    sequenceAfter c.catalog (batches.take covered)
  retired : Obsolete c desk.volume desk.store.retired

section

variable {c : Collection} {batches : List (List PointMutation)} {sure covered : Nat}
  {manifest : Option ManifestFile.Manifest} {body tail : List UInt8} {volume volume' : Volume}
  {names all : List String}

theorem Kept.opened (h : Kept c batches sure volume)
    (hsince : ∀ name ∈ authorityFiles, volume.since name = []) :
    ∃ covered manifest body tail, Holds c batches covered manifest body tail volume.files ∧
      Opened c batches sure covered manifest body tail volume := by
  obtain ⟨-, hmanifest, hwal, -⟩ := mem_authority
  obtain ⟨covered, manifest, hcheckpoint, ⟨body, tail, hwhole, htorn, hsource⟩, hlogs⟩ := h.current
  refine ⟨covered, manifest, body, tail, ⟨h.history, h.identity_files, h.sparse_files,
    hcheckpoint.holds rfl, hwhole, htorn, hsource⟩, h.history, h.sparse,
    ⟨volume.files manifestFile, ?_, hcheckpoint⟩, hwhole, htorn, hsource, hlogs, hsince _ hwal⟩
  intro entry hentry
  rw [Volume.entries, hsince _ hmanifest] at hentry
  rw [mem_singleton.1 hentry, h.manifest_now]

/-! ## The identity -/

theorem identity_other : manifestFile ∉ [collectionTemporary, collectionFile] ∧
    walFile ∉ [collectionTemporary, collectionFile] ∧
    sparseWalFile ∉ [collectionTemporary, collectionFile] := by
  decide

theorem identity_plain : ∀ name ∈ [collectionTemporary, collectionFile], ¬ PointName name := by
  unfold PointName
  decide

theorem temporary_other : ∀ name ∈ authorityFiles, name ∉ [collectionTemporary] := by
  decide

theorem temporary_plain : ∀ name ∈ [collectionTemporary], ¬ PointName name := by
  unfold PointName
  decide

/-- While the identity of an empty collection is published it may be left or not. -/
theorem Kept.identified (h : Kept c [] sure volume)
    (hunborn : volume.Fixed manifestFile none ∧ volume.Fixed walFile none)
    (hreplaced : Durable.Replaced collectionFile c.identity volume volume')
    (hquiet : Volume.Quiet [collectionTemporary, collectionFile] volume volume') :
    Kept c [] sure volume' := by
  obtain ⟨hmanifest, hwal, hsparse⟩ := identity_other
  have hnone := hquiet.fixed hmanifest hunborn.1
  refine ⟨h.history, fun entry hentry => ?_, .inr ⟨rfl, hnone, hquiet.fixed hwal hunborn.2⟩,
    hquiet.always hsparse h.sparse, fun entry hentry => ?_, ?_⟩
  · rcases hreplaced.entries entry hentry with hbefore | hafter
    · exact h.identity entry hbefore
    · exact .inr hafter
  · have hbefore := hquiet.entries hmanifest entry hentry
    obtain ⟨covered, manifest, content, heq, hcheckpoint, hlogs⟩ := h.manifests entry hbefore
    exact ⟨covered, manifest, content, heq, hcheckpoint.plain hquiet identity_plain,
      hquiet.always hwal hlogs⟩
  · obtain ⟨covered, manifest, hcheckpoint, hlog, hlogs⟩ := h.current
    refine ⟨covered, manifest, ?_, ?_, hquiet.always hwal hlogs⟩
    · rw [hquiet.files hmanifest]
      exact hcheckpoint.plain hquiet identity_plain
    · rw [walSource, hquiet.files hwal]
      exact hlog

variable {s : Scheduled Volume}

/-- The identity of a new collection is durable when it is published. -/
theorem wp_publish_field_catalog (h : Kept c [] sure s.state)
    (hunborn : s.state.Fixed manifestFile none ∧ s.state.Fixed walFile none)
    (hnone : s.state.files collectionFile = none)
    (hopened : Opened c [] sure covered manifest body tail s.state) :
    wp (publishFieldCatalog c.catalog [])
      (fun _ s' => Opened c [] sure covered manifest body tail s'.state ∧
        s'.state.Fixed collectionFile (some c.identity) ∧ s.Reaches s')
      (fun e s' => Kept c [] sure s'.state ∧ Halted s e) s := by
  have hversion : require (c.catalog.formatVersion = 2)
      "field publication requires a v2 catalog" = .ok () := require_ok.2 c.version_eq
  have hexpected : checkExpectedIdentity c.catalog [] = .ok () := by
    unfold checkExpectedIdentity
    exact if_neg (by simp)
  have hcommitted : alreadyPublished s.state.files c.identity [] = .ok false := by
    unfold alreadyPublished
    rw [hnone]
    rfl
  unfold publishFieldCatalog
  rw [wp_bind]
  refine wp_of_except_ok hversion ?_
  rw [wp_bind]
  refine wp_of_except_ok c.encoded ?_
  rw [wp_bind]
  refine wp_of_except_ok hexpected ?_
  rw [wp_bind]
  refine wp_mono (Durable.wp_read_files [collectionTemporary]) (fun files s₁ hpost => ?_)
    fun e s₁ hcut => ⟨h.plain hcut.quiet temporary_other temporary_plain, hcut.halted⟩
  obtain ⟨rfl, hs₁, h₁⟩ := hpost
  rw [wp_bind]
  refine wp_of_except_ok hcommitted ?_
  rw [wp_bind]
  refine wp_mono (Durable.wp_remove_file_if_exists (mem_singleton_self collectionTemporary))
    (fun _ s₂ hpost => ?_) fun e s₂ hcut => ?_
  swap
  · have hcut := h₁.cut hcut
    exact ⟨h.plain hcut.quiet temporary_other temporary_plain, hcut.halted⟩
  obtain ⟨-, h₂⟩ := hpost
  have h₂ := h₁.trans h₂
  have hkept := h.plain h₂.quiet temporary_other temporary_plain
  have hunborn' : s₂.state.Fixed manifestFile none ∧ s₂.state.Fixed walFile none :=
    ⟨h₂.quiet.fixed (by decide) hunborn.1, h₂.quiet.fixed (by decide) hunborn.2⟩
  rw [if_neg Bool.false_ne_true, wp_recovering]
  refine wp_mono (Durable.wp_replace_file (by decide) c.identity) (fun _ s₃ hpost => ?_)
    fun e s₃ hpost => ?_
  · obtain ⟨hnow, hsince, h₃⟩ := hpost
    have hmore : ∀ name ∈ [collectionTemporary], name ∈ [collectionTemporary, collectionFile] :=
      fun name hname => mem_cons.2 (.inl (mem_singleton.1 hname))
    refine ⟨hopened.quiet ((h₂.quiet.weaken hmore).trans h₃.quiet) identity_other
      fun name hname hmentioned => identity_plain name hname (h.mentioned hmentioned).1, ?_,
      schedule_trans h₂.reaches h₃.reaches⟩
    intro entry hentry
    rw [Volume.entries, hnow, hsince] at hentry
    exact mem_singleton.1 hentry
  · obtain ⟨hreplaced, hcut⟩ := hpost
    have hleft := hkept.identified hunborn' hreplaced hcut.quiet
    refine ⟨fun hcrash => ⟨hleft, hcrash ▸ hcut.halted.later h₂.reaches⟩, fun hne => ?_⟩
    -- The temporary file is removed if that can be done, and the exception is raised again.
    rw [wp_bind, wp_recovering]
    refine wp_mono (Durable.wp_remove_file_if_exists
      (mem_singleton_self collectionTemporary)) (fun _ s₄ hpost => ?_) fun e' s₄ hcut' => ?_
    · rw [wp_raise]
      exact ⟨hleft.plain hpost.2.quiet temporary_other temporary_plain,
        hcut.halted.later h₂.reaches⟩
    · have hleft' := hleft.plain hcut'.quiet temporary_other temporary_plain
      refine ⟨fun hcrash => ⟨hleft', ?_⟩, fun _ => ?_⟩
      · exact ⟨.inl rfl, (hcut.halted.later h₂.reaches).restless⟩
      · rw [wp_pure, wp_raise]
        exact ⟨hleft', hcut.halted.later h₂.reaches⟩

/-! ## The log -/

/-- A torn envelope may be cut from the log. -/
theorem Opened.repaired (h : Opened c batches sure covered manifest body tail volume)
    {file : StoredFile} (hfile : volume.now walFile = some file) {since : List (List UInt8)}
    (hnow : volume'.now walFile = some ⟨body, since⟩)
    (hcontents : ∀ content ∈ since, content ∈ file.contents)
    (hsince : volume'.since walFile = volume.since walFile)
    (hquiet : Volume.Quiet [walFile] volume volume') :
    Opened c batches sure covered manifest body [] volume' := by
  obtain ⟨-, hmanifest, hsparse⟩ := wal_other
  obtain ⟨content, hcontent, hcheckpoint⟩ := h.checkpoint
  rw [h.log_since] at hsince
  have hlogs := h.logs.now
  rw [hfile] at hlogs
  obtain ⟨count, hsure, hlog⟩ := hlogs (some file.bytes) ⟨file.bytes, mem_cons_self, rfl⟩
  refine ⟨h.history, hquiet.always hsparse h.sparse,
    ⟨content, hquiet.fixed hmanifest hcontent, hcheckpoint.plain hquiet wal_plain⟩, h.whole,
    torn_nil c.catalog, ?_, ?_, hsince⟩
  · rw [walSource, Volume.files, hnow, append_nil]
    rfl
  · intro entry hentry left hleft
    rw [Volume.entries, hnow, hsince] at hentry
    rw [mem_singleton.1 hentry] at hleft
    obtain ⟨part, hpart, rfl⟩ := hleft
    rcases mem_cons.1 hpart with rfl | hpart
    · exact ⟨batches.length, hsure.trans hlog.count_le, h.whole.log_at⟩
    · exact hlogs (some part) ⟨part, hcontents part hpart, rfl⟩

/-- The log is cut to its whole envelopes. -/
theorem wp_repair_wal_tail (h : Opened c batches sure covered manifest body tail s.state)
    (hidentity : s.state.Fixed collectionFile (some c.identity)) :
    wp (repairWalTail body.length (body ++ tail).length)
      (fun _ s' => Opened c batches sure covered manifest body [] s'.state ∧
        s'.state.Fixed collectionFile (some c.identity) ∧ s.Reaches s')
      (fun e s' => Kept c batches sure s'.state ∧ Halted s e) s := by
  obtain ⟨hcollection, -, -⟩ := wal_other
  have hle : require (body.length ≤ (body ++ tail).length) "invalid WAL repair length" = .ok () :=
    require_ok.2 (by rw [length_append]; exact Nat.le_add_right _ _)
  unfold repairWalTail
  rw [wp_bind]
  refine wp_of_except_ok hle ?_
  by_cases htail : tail = []
  · subst htail
    rw [append_nil, if_pos rfl]
    exact ⟨h, hidentity, schedule_refl s⟩
  · have hlength : body.length ≠ (body ++ tail).length := by
      rw [length_append]
      have := length_pos_of_ne_nil htail
      omega
    rw [if_neg hlength, wp_bind, wp_get]
    have hsource := h.source
    cases hnow : s.state.now walFile with
    | none =>
        rw [walSource, Volume.files, hnow] at hsource
        exact absurd (append_eq_nil_iff.1 hsource.symm).2 htail
    | some file =>
        rw [walSource, Volume.files, hnow] at hsource
        have hbytes : file.bytes = body ++ tail := hsource
        have hread : require (file.bytes.length = (body ++ tail).length)
            "WAL changed after preflight" = .ok () := require_ok.2 (by rw [hbytes])
        dsimp only
        rw [wp_bind]
        refine wp_of_except_ok hread ?_
        rw [wp_bind]
        refine wp_step (fun s₁ hs₁ h₁ => ?_) fun e s₁ hs₁ hhalted =>
          ⟨hs₁ ▸ h.kept hidentity, hhalted⟩
        have hquiet : Volume.Quiet [walFile] s.state s₁.state :=
          hs₁ ▸ Volume.quiet_modify (mem_singleton_self walFile)
        have hcut : s₁.state.now walFile = some ⟨body, file.contents⟩ := by
          rw [hs₁, Volume.now_truncate_self, hnow]
          show some (StoredFile.mk (file.bytes.take body.length) (file.bytes :: file.since)) = _
          rw [hbytes, take_left]
          rw [StoredFile.contents, hbytes]
        have hopened := h.repaired hnow hcut (fun _ hcontent => hcontent) (by rw [hs₁]; rfl) hquiet
        have hfixed := hquiet.fixed hcollection hidentity
        refine wp_step (fun s₂ hs₂ h₂ => ?_) fun e s₂ hs₂ hhalted =>
          ⟨hs₂ ▸ hopened.kept hfixed, hhalted.later h₁⟩
        have hquiet' : Volume.Quiet [walFile] s₁.state s₂.state :=
          hs₂ ▸ Volume.quiet_modify (mem_singleton_self walFile)
        have hsynced : s₂.state.now walFile = some ⟨body, []⟩ := by
          rw [hs₂, Volume.now_sync_file_self, hcut]
          rfl
        refine ⟨h.repaired hnow hsynced (fun content hcontent => ?_) (by rw [hs₂, hs₁]; rfl)
          (hquiet.trans hquiet'), hquiet'.fixed hcollection hfixed, schedule_trans h₁ h₂⟩
        cases hcontent

/-- While a log is created it is empty or not there. -/
theorem Opened.created (h : Opened c batches sure covered manifest body [] volume)
    (hidentity : volume.Fixed collectionFile (some c.identity)) (hnone : volume.now walFile = none)
    (hwal : volume'.Always (fun entry => entry = none ∨ entry = some (.durable [])) walFile)
    (hquiet : Volume.Quiet [walFile] volume volume') :
    Kept c batches sure volume' ∧ (volume'.now walFile = some (.durable []) →
      volume'.since walFile = [] → Settled c batches sure covered manifest volume') := by
  obtain ⟨hcollection, hmanifest, hsparse⟩ := wal_other
  obtain ⟨content, hcontent, hcheckpoint⟩ := h.checkpoint
  obtain rfl : body = [] := by
    have hsource := h.source
    rw [walSource, Volume.files, hnone, append_nil] at hsource
    exact hsource.symm
  have hlogs := h.logs.now
  rw [hnone] at hlogs
  obtain ⟨count, hsure, hlog⟩ := hlogs none rfl
  have hall : volume'.Always (LogEntry c batches sure covered) walFile := by
    refine hwal.mono fun entry hentry left hleft => ?_
    refine ⟨batches.length, hsure.trans hlog.count_le, ?_⟩
    rcases hentry with rfl | rfl
    · have hnothing : left = none := hleft
      rw [hnothing]
      exact h.whole.log_at
    · have hempty : MayLeave ((some []).map .durable) left := hleft
      rw [Volume.may_leave_durable.1 hempty]
      exact h.whole.log_at
  have hfixed := hquiet.fixed hmanifest hcontent
  have hafter := hcheckpoint.plain hquiet wal_plain
  have hborn := hquiet.fixed hcollection hidentity
  refine ⟨⟨h.history, hborn.mono fun entry heq => .inr heq, .inl hborn,
    hquiet.always hsparse h.sparse,
    hfixed.mono fun entry heq => ⟨covered, manifest, content, heq, hafter, hall⟩,
    covered, manifest, ?_, ?_, hall⟩, fun hnow hsince => ?_⟩
  · rw [hfixed.files]
    exact hafter
  · have hsource : walSource volume'.files = [] := by
      rw [walSource, Volume.files]
      rcases hwal.now with hnow | hnow <;> rw [hnow] <;> rfl
    rw [hsource]
    exact h.whole.log_at
  · exact ⟨h.history, hborn, hquiet.always hsparse h.sparse, ⟨content, hfixed, hafter⟩,
      ⟨.durable [], hnow, h.whole⟩, hall, hsince⟩

/-- The log that is created is empty. -/
theorem wp_create_wal (h : Opened c batches sure covered manifest body [] s.state)
    (hidentity : s.state.Fixed collectionFile (some c.identity)) :
    wp createWal
      (fun _ s' => Settled c batches sure covered manifest s'.state ∧ s.Reaches s')
      (fun e s' => Kept c batches sure s'.state ∧ Halted s e) s := by
  unfold createWal
  rw [wp_bind, Durable.wp_path_exists]
  cases hnone : s.state.now walFile with
  | some file => exact ⟨h.settled hidentity hnone, schedule_refl s⟩
  | none =>
      have hsince := h.log_since
      show wp (do
        Durable.writeFileSync walFile []
        Durable.syncDirectory) _ _ s
      unfold Durable.writeFileSync Durable.openWrite Durable.writeAll Durable.syncFile
        Durable.syncDirectory
      rw [wp_bind, wp_bind]
      refine wp_step (fun s₁ hs₁ h₁ => ?_) fun e s₁ hs₁ hhalted =>
        ⟨hs₁ ▸ h.kept hidentity, hhalted⟩
      have hput : s₁.state = s.state.put walFile (some (.durable [])) := by
        rw [hs₁, Volume.openWrite, hnone]
        rfl
      have hquiet : Volume.Quiet [walFile] s.state s₁.state :=
        hput ▸ Volume.quiet_put (mem_singleton_self walFile)
      have hentries : s₁.state.Always (fun entry => entry = none ∨ entry = some (.durable []))
          walFile := by
        rw [hput, Volume.always_put_self]
        refine ⟨.inr rfl, fun entry hentry => .inl ?_⟩
        rw [Volume.entries, hnone, hsince] at hentry
        exact mem_singleton.1 hentry
      have hnow : s₁.state.now walFile = some (.durable []) := by
        rw [hput, Volume.now_put_self]
      rw [wp_bind]
      show wp (ScheduleM.step (Volume.syncFile walFile) : VolumeM Unit) _ _ s₁
      refine wp_step (fun s₂ hs₂ h₂ => ?_) fun e s₂ hs₂ hhalted =>
        ⟨hs₂ ▸ (h.created hidentity hnone hentries hquiet).1, hhalted.later h₁⟩
      have hsame : s₂.state.now walFile = some (.durable []) := by
        rw [hs₂, Volume.now_sync_file_self, hnow]
        rfl
      have hquiet₂ : Volume.Quiet [walFile] s.state s₂.state :=
        hquiet.trans (hs₂ ▸ Volume.quiet_modify (mem_singleton_self walFile))
      have hentries₂ : s₂.state.Always (fun entry => entry = none ∨ entry = some (.durable []))
          walFile := by
        intro entry hentry
        rcases mem_cons.1 hentry with rfl | hbefore
        · exact .inr hsame
        · rw [hs₂] at hbefore
          exact hentries entry (mem_cons_of_mem _ hbefore)
      refine wp_step (fun s₃ hs₃ h₃ => ?_) fun e s₃ hs₃ hhalted =>
        ⟨hs₃ ▸ (h.created hidentity hnone hentries₂ hquiet₂).1,
          hhalted.later (schedule_trans h₁ h₂)⟩
      have hquiet₃ : Volume.Quiet [walFile] s.state s₃.state :=
        hquiet₂.trans (hs₃ ▸ Volume.quiet_sync_directory)
      have hsynced : s₃.state.now walFile = some (.durable []) := by
        rw [hs₃]
        exact hsame
      refine ⟨(h.created hidentity hnone ?_ hquiet₃).2 hsynced (by rw [hs₃]; rfl),
        schedule_trans h₁ (schedule_trans h₂ h₃)⟩
      rw [hs₃, Volume.always_sync_directory]
      exact .inr hsame

/-! ## Removing files -/

/-- What a loop over obsolete files leaves. -/
structure Reclaimed (leased : String → Bool) (names : List String) (s s' : Scheduled Volume) :
    Prop where
  done : Done names s s'
  kept : ∀ name, leased name = true → s'.state.now name = s.state.now name

variable {leased : String → Bool}

theorem Reclaimed.trans {s₁ s₂ s₃ : Scheduled Volume} (h : Reclaimed leased names s₁ s₂)
    (h' : Reclaimed leased names s₂ s₃) :
    Reclaimed leased names s₁ s₃ :=
  ⟨h.done.trans h'.done, fun name hname => (h'.kept name hname).trans (h.kept name hname)⟩

/-- A leased file stays. -/
theorem wp_try_reclaim_file {name : String} (hname : name ∈ names) :
    wp (tryReclaimFile leased name)
      (fun gone s' => Reclaimed leased names s s' ∧
        (gone = false → leased name = true ∧ s.state.now name ≠ none))
      (Cut names s) s := by
  unfold tryReclaimFile
  rw [wp_bind, Durable.wp_path_exists]
  cases hnow : s.state.now name with
  | none =>
      exact ⟨⟨Durable.done_refl names s, fun _ _ => rfl⟩, fun hcontra => (by cases hcontra)⟩
  | some file =>
      rw [if_pos (by simp)]
      cases hleased : leased name with
      | true =>
          rw [if_pos rfl, wp_bind]
          refine wp_mono (Durable.wp_touch names) (fun _ s' hpost => ?_) fun _ _ hcut => hcut
          obtain ⟨hs', hdone⟩ := hpost
          refine ⟨⟨hdone, fun other _ => by rw [hs']⟩, fun _ => ⟨rfl, ?_⟩⟩
          exact Option.some_ne_none file
      | false =>
          rw [if_neg Bool.false_ne_true, wp_bind]
          refine wp_mono (Durable.wp_change (Volume.quiet_remove hname)) (fun _ s' hpost => ?_)
            fun _ _ hcut => hcut
          obtain ⟨hs', hdone⟩ := hpost
          refine ⟨⟨hdone, fun other hother => ?_⟩, fun hcontra => (by cases hcontra)⟩
          have hne : other ≠ name := by
            rintro rfl
            rw [hleased] at hother
            cases hother
          rw [hs']
          exact Volume.now_put_of_ne hne

/-- The files that have to be tried again are leased, and are there. -/
theorem wp_reclaim_files {check : String → Except String Unit}
    (hnames : ∀ name ∈ names, name ∈ all) :
    wp (reclaimFiles leased check names)
      (fun out s' => Reclaimed leased all s s' ∧
        ∀ name ∈ out.1, name ∈ names ∧ s'.state.now name ≠ none)
      (fun e s' => Volume.Quiet all s.state s'.state ∧
        (Halted s e ∨ ∃ name ∈ names, ∃ message, check name = .error message)) s := by
  induction names generalizing s with
  | nil =>
      exact ⟨⟨Durable.done_refl all s, fun _ _ => rfl⟩, fun name hname => absurd hname
        not_mem_nil⟩
  | cons name names ih =>
      rw [forall_mem_cons] at hnames
      unfold reclaimFiles
      rw [wp_bind, wp_of_except]
      refine ⟨fun _ _ => ?_, fun message hmessage =>
        ⟨Volume.quiet_refl all s.state, .inr ⟨name, mem_cons_self, message, hmessage⟩⟩⟩
      rw [wp_bind]
      refine wp_mono (wp_try_reclaim_file hnames.1) (fun gone s₁ hpost => ?_)
        fun e s₁ hcut => ⟨hcut.quiet, .inl hcut.halted⟩
      obtain ⟨h₁, hgone⟩ := hpost
      rw [wp_bind]
      refine wp_mono (ih hnames.2) (fun out s₂ hpost => ?_) fun e s₂ hpost => ?_
      · obtain ⟨h₂, hout⟩ := hpost
        have hrest : ∀ other ∈ out.1, other ∈ name :: names ∧ s₂.state.now other ≠ none :=
          fun other hother => ⟨mem_cons_of_mem name (hout other hother).1,
            (hout other hother).2⟩
        rw [wp_pure]
        cases gone with
        | true => exact ⟨h₁.trans h₂, hrest⟩
        | false =>
            refine ⟨h₁.trans h₂, fun other hother => ?_⟩
            rcases mem_cons.1 hother with rfl | hlater
            · obtain ⟨hleased, hthere⟩ := hgone rfl
              rw [(h₁.trans h₂).kept other hleased]
              exact ⟨mem_cons_self, hthere⟩
            · exact hrest other hlater
      · obtain ⟨hquiet, hreason⟩ := hpost
        refine ⟨h₁.done.quiet.trans hquiet, ?_⟩
        rcases hreason with hhalted | ⟨other, hother, hmessage⟩
        · exact .inl (hhalted.later h₁.done.reaches)
        · exact .inr ⟨other, mem_cons_of_mem name hother, hmessage⟩

theorem authority_no_output : ∀ name ∈ authorityFiles, isJobOutput name = false := by
  decide +kernel

/-- The names that a manifest references. -/
def referencedNames (manifest : Option ManifestFile.Manifest) : List String :=
  (manifest.map (·.names)).getD []

/-- The names in the manifest of a directory. -/
theorem Opened.referenced (h : Opened c batches sure covered manifest body tail volume) :
    (match volume.files manifestFile with
      | none => pure []
      | some _ => do
          let bytes ← readFileBounded volume.files manifestFile ManifestFile.maxManifestBytes
          let manifest ← ManifestFile.decodeManifestBytes bytes (denseDimension c.catalog)
          pure manifest.names : Except String (List String)) = .ok (referencedNames manifest) := by
  obtain ⟨content, hcontent, hcheckpoint⟩ := h.checkpoint
  have hfiles := hcontent.files
  cases hcheckpoint with
  | absent =>
      rw [hfiles]
      rfl
  | @present covered manifest bytes hcommitted =>
      have hdimension := hcommitted.checkpointed.dimension_eq
      have hbound := (dense_dimension_bounds c.catalog).2
      obtain ⟨-, hlength, hdecode⟩ := manifest_bytes_decoded hcommitted.constructed (by omega)
        hcommitted.encoded
      rw [hdimension] at hdecode
      unfold readFileBounded readFile
      rw [hfiles]
      simp only [bind_ok, exists_unit, require_ok, pure_ok]
      exact ⟨bytes, ⟨bytes, rfl, Nat.not_lt.2 hlength, rfl⟩, manifest, hdecode, rfl⟩

/-- Files of jobs that the manifest does not reference may go. -/
theorem wp_reclaim_unreferenced_job_files (surroundings : Surroundings)
    (h : Opened c batches sure covered manifest body tail s.state)
    (hidentity : s.state.Fixed collectionFile (some c.identity)) :
    wp (reclaimUnreferencedJobFiles surroundings (denseDimension c.catalog))
      (fun _ s' => Opened c batches sure covered manifest body tail s'.state ∧
        s'.state.Fixed collectionFile (some c.identity) ∧ s.Reaches s')
      (fun e s' => Kept c batches sure s'.state ∧ Halted s e) s := by
  obtain ⟨hcollection, hmanifest, hwal, hsparse⟩ := mem_authority
  let obsolete := surroundings.listing.filter fun name =>
    name ∉ referencedNames manifest ∧ isJobOutput name
  have hother : ∀ name ∈ authorityFiles, name ∉ obsolete := by
    intro name hname hmem
    have houtput := (mem_filter.1 hmem).2
    rw [authority_no_output name hname] at houtput
    simp at houtput
  have hsegments : ∀ name ∈ obsolete, ¬ Mentioned c s.state name := by
    intro name hmem hmentioned
    obtain ⟨named, rfl, segment, hsegment, rfl⟩ := h.mentioned hmentioned
    have hunreferenced := (mem_filter.1 hmem).2
    have hname : segment.name ∈ segment.names := by
      unfold ManifestFile.SegmentDescriptor.names
      split <;> exact mem_cons_self
    have hreferenced : segment.name ∈ referencedNames (some named) :=
      mem_append_left _ (mem_flatMap.2 ⟨segment, hsegment, hname⟩)
    simp [hreferenced] at hunreferenced
  have hframe : ∀ {volume : Volume}, Volume.Quiet obsolete s.state volume →
      Opened c batches sure covered manifest body tail volume ∧
        volume.Fixed collectionFile (some c.identity) := fun hquiet =>
    ⟨h.quiet hquiet ⟨hother _ hmanifest, hother _ hwal, hother _ hsparse⟩ hsegments,
      hquiet.fixed (hother _ hcollection) hidentity⟩
  unfold reclaimUnreferencedJobFiles
  rw [wp_bind]
  refine wp_mono (Durable.wp_read_files obsolete) (fun files s₁ hpost => ?_) fun e s₁ hcut =>
    ⟨(hframe hcut.quiet).1.kept (hframe hcut.quiet).2, hcut.halted⟩
  obtain ⟨rfl, hs₁, h₁⟩ := hpost
  rw [wp_bind]
  refine wp_of_except_ok h.referenced ?_
  rw [wp_bind]
  refine wp_mono (wp_reclaim_files fun name hname => hname) (fun out s₂ hpost => ?_)
    fun e s₂ hpost => ?_
  · obtain ⟨h₂, -⟩ := hpost
    have h₂ := h₁.trans h₂.done
    show wp (if out.2 then Durable.syncDirectory else pure ()) _ _ s₂
    cases out.2 with
    | false => exact ⟨(hframe h₂.quiet).1, (hframe h₂.quiet).2, h₂.reaches⟩
    | true =>
        refine wp_step (fun s₃ hs₃ h₃ => ?_) fun e s₃ hs₃ hhalted => ?_
        · have hquiet : Volume.Quiet obsolete s.state s₃.state :=
            h₂.quiet.trans (hs₃ ▸ Volume.quiet_sync_directory)
          exact ⟨(hframe hquiet).1, (hframe hquiet).2, schedule_trans h₂.reaches h₃⟩
        · have hquiet : Volume.Quiet obsolete s.state s₃.state := hs₃ ▸ h₂.quiet
          exact ⟨(hframe hquiet).1.kept (hframe hquiet).2, hhalted.later h₂.reaches⟩
  · obtain ⟨hquiet, hreason⟩ := hpost
    have hquiet := h₁.quiet.trans hquiet
    refine ⟨(hframe hquiet).1.kept (hframe hquiet).2, ?_⟩
    rcases hreason with hhalted | ⟨name, -, message, hmessage⟩
    · exact hhalted.later h₁.reaches
    · cases hmessage

/-! ## Opening -/

theorem lock_other : ∀ name ∈ authorityFiles, name ∉ [PointStore.collectionLockFile] := by
  decide

theorem lock_plain : ∀ name ∈ [PointStore.collectionLockFile], ¬ PointName name := by
  unfold PointName
  decide

theorem lock_not_graph : ¬ GraphName PointStore.collectionLockFile := by
  unfold GraphName
  decide

/-- The last steps of `open`. -/
theorem wp_finish_open (surroundings : Surroundings)
    (h : Opened c batches sure covered manifest body tail s.state)
    (hidentity : s.state.Fixed collectionFile (some c.identity)) {recovered : PointRecovery}
    (hrecovers : Recovers c batches covered body tail recovered) (valid : Bool) :
    wp (do
        repairWalTail body.length (body ++ tail).length
        repairSparseWalTail recovered.sparseWal
        reclaimUnreferencedJobFiles surroundings (denseDimension c.catalog)
        createWal
        pure ⟨c.catalog, recovered.points, true, manifest, manifest.isSome, [], false, valid⟩ :
          VolumeM PointStore)
      (fun store s' => Running c batches sure covered ⟨s'.state, store⟩ ∧ s.Reaches s')
      (fun e s' => Kept c batches sure s'.state ∧ Halted s e) s := by
  have hsparse : repairSparseWalTail recovered.sparseWal = pure () := if_neg hrecovers.sparse
  rw [wp_bind]
  refine wp_mono (wp_repair_wal_tail h hidentity) (fun _ s₁ hpost => ?_) fun _ _ herr => herr
  obtain ⟨hopened₁, hidentity₁, h₁⟩ := hpost
  rw [hsparse, wp_bind, wp_pure, wp_bind]
  refine wp_mono (wp_reclaim_unreferenced_job_files surroundings hopened₁ hidentity₁)
    (fun _ s₂ hpost => ?_) fun e s₂ herr => ⟨herr.1, herr.2.later h₁⟩
  obtain ⟨hopened₂, hidentity₂, h₂⟩ := hpost
  rw [wp_bind]
  refine wp_mono (wp_create_wal hopened₂ hidentity₂) (fun _ s₃ hpost => ?_)
    fun e s₃ herr => ⟨herr.1, herr.2.later (schedule_trans h₁ h₂)⟩
  obtain ⟨hsettled, h₃⟩ := hpost
  rw [wp_pure]
  refine ⟨⟨hsettled, rfl, hrecovers.shows, hrecovers.writer, rfl, rfl, rfl,
    hrecovers.checkpoint.le, fun name hname => ?_⟩, schedule_trans h₁ (schedule_trans h₂ h₃)⟩
  exact absurd hname not_mem_nil

/-- A store shows what its directory keeps. -/
theorem wp_open (surroundings : Surroundings) (h : Kept c batches sure s.state) :
    wp (PointStore.open surroundings c.fields)
      (fun store s' => (∃ covered, Running c batches sure covered ⟨s'.state, store⟩) ∧
        s.Reaches s')
      (fun e s' => Kept c batches sure s'.state ∧
        (Halted s e ∨ ¬ surroundings.GraphOpens s.state.files)) s := by
  unfold PointStore.open
  rw [wp_bind]
  refine wp_of_except_ok c.created ?_
  rw [wp_bind]
  refine wp_step (fun s₁ hs₁ h₁ => ?_) fun e s₁ hs₁ hhalted =>
    ⟨hs₁ ▸ h, .inl hhalted⟩
  have hkept₁ : Kept c batches sure s₁.state := by
    rw [hs₁]
    exact h.plain Volume.quiet_sync_directory (by simp [authorityFiles]) (fun name hname =>
      absurd hname not_mem_nil)
  have hsince₁ : ∀ name, s₁.state.since name = [] := by
    intro name
    rw [hs₁]
    rfl
  rw [wp_bind]
  refine wp_mono (Durable.wp_open_append (mem_singleton_self PointStore.collectionLockFile))
    (fun _ s₂ h₂ => ?_) fun e s₂ hcut =>
      ⟨hkept₁.plain hcut.quiet lock_other lock_plain, .inl (hcut.halted.later h₁)⟩
  rw [wp_bind]
  refine wp_mono (Durable.wp_read_files [PointStore.collectionLockFile]) (fun files s₃ hpost => ?_)
    fun e s₃ hcut => ?_
  swap
  · have hcut := h₂.cut hcut
    exact ⟨hkept₁.plain hcut.quiet lock_other lock_plain, .inl (hcut.halted.later h₁)⟩
  obtain ⟨rfl, hs₃, h₃⟩ := hpost
  have h₃ := h₂.trans h₃
  have hkept : Kept c batches sure s₃.state := hkept₁.plain h₃.quiet lock_other lock_plain
  have hreaches : s.Reaches s₃ := schedule_trans h₁ h₃.reaches
  have hsince : ∀ name ∈ authorityFiles, s₃.state.since name = [] := by
    intro name hname
    have hsubset := h₃.quiet.since name (lock_other name hname)
    rw [hsince₁] at hsubset
    exact subset_nil.1 hsubset
  rw [← hs₃, wp_bind, wp_of_except]
  obtain ⟨covered, manifest, body, tail, hholds, hopened⟩ := hkept.opened hsince
  rcases preflight_holds hholds surroundings with ⟨found, hfound, hspec⟩ |
    ⟨⟨message, hmessage⟩, hclosed⟩
  swap
  · rw [hmessage]
    refine ⟨fun _ hcontra => (by cases hcontra), fun _ _ => ⟨hkept, .inr fun hgraphs => ?_⟩⟩
    have hsame : ∀ name, name ∉ [PointStore.collectionLockFile] →
        s₃.state.files name = s.state.files name := fun name hname =>
      (h₃.quiet.files hname).trans (by
        rw [hs₁]
        exact Volume.quiet_sync_directory.files not_mem_nil)
    refine hclosed fun content manifest name bytes hfile hencoded hname hnamed hbytes => ?_
    refine hgraphs content manifest name bytes ?_ hencoded hname hnamed ?_
    · rw [← hsame _ (lock_other _ mem_authority.2.1)]
      exact hfile
    · rw [← hsame name fun hmem => lock_not_graph (mem_singleton.1 hmem ▸ hnamed)]
      exact hbytes
  rw [hfound]
  refine ⟨fun other heq => ?_, fun _ hcontra => (by cases hcontra)⟩
  obtain rfl := Except.ok.inj heq
  obtain ⟨hcatalog, hrecovers, hmanifest, hpoint, hpublishes, hexpected⟩ := hspec
  rw [hcatalog, hmanifest, hpoint, hrecovers.valid, hrecovers.source]
  cases hpublish : found.publishes with
  | false =>
      -- The identity is there, and what a process sees of a synced directory is all there is.
      have hidentity : s₃.state.Fixed collectionFile (some c.identity) := by
        intro entry hentry
        rw [Volume.entries, hsince _ mem_authority.1] at hentry
        rw [mem_singleton.1 hentry]
        rcases hkept.identity.now with hnone | hsome
        · have hfiles : s₃.state.files collectionFile = none := by
            rw [Volume.files, hnone]
            rfl
          rw [hpublishes.2 hfiles] at hpublish
          cases hpublish
        · exact hsome
      refine wp_mono (wp_finish_open surroundings hopened hidentity hrecovers found.hnswValid)
        (fun store s' hpost => ⟨⟨covered, hpost.1⟩, schedule_trans hreaches hpost.2⟩)
        fun e s' herr => ⟨herr.1, .inl (herr.2.later hreaches)⟩
  | true =>
      have hfiles := hpublishes.1 hpublish
      obtain ⟨rfl, hunborn⟩ : batches = [] ∧ s₃.state.Fixed manifestFile none ∧
          s₃.state.Fixed walFile none := by
        rcases hkept.unborn with hborn | hunborn
        · rw [hborn.files] at hfiles
          cases hfiles
        · exact hunborn
      rw [hexpected hpublish]
      show wp (publishFieldCatalog c.catalog [] >>= fun _ => _) _ _ s₃
      rw [wp_bind]
      refine wp_mono (wp_publish_field_catalog hkept hunborn hfiles hopened)
        (fun _ s₄ hpost => ?_) fun e s₄ herr => ⟨herr.1, .inl (herr.2.later hreaches)⟩
      obtain ⟨hopened₄, hidentity₄, h₄⟩ := hpost
      have hreaches₄ := schedule_trans hreaches h₄
      exact wp_mono (wp_finish_open surroundings hopened₄ hidentity₄ hrecovers found.hnswValid)
        (fun store s' hpost => ⟨⟨covered, hpost.1⟩, schedule_trans hreaches₄ hpost.2⟩)
        fun e s' herr => ⟨herr.1, .inl (herr.2.later hreaches₄)⟩

end

end Akasha.Storage

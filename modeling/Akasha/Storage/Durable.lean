import Akasha.Lib.Schedule
import Akasha.Lib.Volume

/-!
# File operations that may be cut short

The operations of `storage/filesystem.mojo` on one directory whose files grow, as programs that are
halted at any step. A path is the name of a file in that directory. A file is written byte by byte,
so that a program may be halted behind every byte. Reading is one step that changes nothing.
-/

namespace Akasha.Storage.Durable

open Lib Lib.Exec ScheduleM Volume List

/-- A program that writes a directory. -/
abbrev VolumeM := ScheduleM Volume String

/-- A step that changes nothing, such as a read. -/
def touch : VolumeM Unit :=
  step id

/-- What a process reads of a directory that no other one writes. -/
def readFiles : VolumeM Files := do
  touch
  let volume ← get
  pure volume.files

/-- `path_exists`. -/
def pathExists (name : String) : VolumeM Bool := do
  let volume ← get
  pure (volume.now name).isSome

/-- `open(path, "w")`. -/
def openWrite (name : String) : VolumeM Unit :=
  step (Volume.openWrite name)

/-- `open(path, "a")`. -/
def openAppend (name : String) : VolumeM Unit := do
  if ← pathExists name then touch
  else step (put name (some (.durable [])))

/-- `write_all`. -/
def writeAll (name : String) (bytes : List UInt8) : VolumeM Unit :=
  forEach bytes fun byte => step (appendByte name byte)

/-- `sync_file`. -/
def syncFile (name : String) : VolumeM Unit :=
  step (Volume.syncFile name)

/-- `sync_directory`. -/
def syncDirectory : VolumeM Unit :=
  step Volume.syncDirectory

/-- `write_file_sync`. -/
def writeFileSync (name : String) (bytes : List UInt8) : VolumeM Unit := do
  openWrite name
  writeAll name bytes
  syncFile name

/-- `append_file_sync`. -/
def appendFileSync (name : String) (bytes : List UInt8) : VolumeM Unit := do
  openAppend name
  writeAll name bytes
  syncFile name

/-- `create_file_exclusive`: whether the name was free. -/
def createFileExclusive (name : String) : VolumeM Bool := do
  if ← pathExists name then
    touch
    pure false
  else
    step (put name (some (.durable [])))
    pure true

/-- `remove_file_if_exists`. -/
def removeFileIfExists (name : String) : VolumeM Unit := do
  if ← pathExists name then step (remove name) else pure ()

/-- `atomic_replace`. -/
def atomicReplace (source target : String) : VolumeM Unit := do
  if ← pathExists source then step (rename source target)
  else throw "rename failed"

/-- Write a file beside the one that it replaces, and make the replacement durable. -/
def replaceFile (temporary name : String) (bytes : List UInt8) : VolumeM Unit := do
  writeFileSync temporary bytes
  atomicReplace temporary name
  syncDirectory

/-- The loop over the names that a job may claim. The first one that is free is built under, and
cleaned up when that fails. -/
def claimExclusive (message : String) (build clean : String → VolumeM Unit) :
    List String → VolumeM String
  | [] => throw message
  | name :: names => do
      if ← createFileExclusive name then
        recovering (do
          build name
          syncDirectory
          pure name) fun e => do
            clean name
            syncDirectory
            raise e
      else claimExclusive message build clean names

/-! ## Rules -/

section

variable {s : Scheduled Volume} {name : String} {names : List String} {bytes : List UInt8}
  {file : StoredFile}

/-- What a program that changes some names leaves when it returns. -/
structure Done (names : List String) (s s' : Scheduled Volume) : Prop where
  quiet : Volume.Quiet names s.state s'.state
  reaches : s.Reaches s'

/-- What a program that changes some names leaves when it is halted. -/
structure Cut (names : List String) (s : Scheduled Volume) (e : Fault String)
    (s' : Scheduled Volume) : Prop where
  quiet : Volume.Quiet names s.state s'.state
  halted : Halted s e

theorem done_refl (names : List String) (s : Scheduled Volume) : Done names s s :=
  ⟨quiet_refl names s.state, schedule_refl s⟩

theorem Done.trans {s₁ s₂ s₃ : Scheduled Volume} (h : Done names s₁ s₂) (h' : Done names s₂ s₃) :
    Done names s₁ s₃ :=
  ⟨h.quiet.trans h'.quiet, schedule_trans h.reaches h'.reaches⟩

theorem Done.cut {s₁ s₂ s₃ : Scheduled Volume} {e : Fault String} (h : Done names s₁ s₂)
    (h' : Cut names s₂ e s₃) : Cut names s₁ e s₃ :=
  ⟨h.quiet.trans h'.quiet, h'.halted.later h.reaches⟩

theorem wp_change {change : Volume → Volume}
    (hquiet : Volume.Quiet names s.state (change s.state)) :
    wp (step change : VolumeM Unit)
      (fun _ s' => s'.state = change s.state ∧ Done names s s') (Cut names s) s :=
  wp_step (fun _ hstate hreaches => ⟨hstate, hstate ▸ hquiet, hreaches⟩)
    fun _ _ hstate hhalted => ⟨hstate ▸ quiet_refl names s.state, hhalted⟩

theorem wp_touch (names : List String) :
    wp touch (fun _ s' => s'.state = s.state ∧ Done names s s') (Cut names s) s :=
  wp_change (quiet_refl names s.state)

theorem wp_read_files (names : List String) :
    wp readFiles (fun files s' => files = s.state.files ∧ s'.state = s.state ∧ Done names s s')
      (Cut names s) s := by
  unfold readFiles
  rw [wp_bind]
  refine wp_mono (wp_touch names) (fun _ s' hpost => ?_) fun _ _ h => h
  obtain ⟨hstate, hdone⟩ := hpost
  rw [wp_bind, wp_get, wp_pure, hstate]
  exact ⟨rfl, rfl, hdone⟩

@[simp] theorem wp_path_exists {Q : Bool → Scheduled Volume → Prop}
    {E : Fault String → Scheduled Volume → Prop} :
    wp (pathExists name) Q E s ↔ Q (s.state.now name).isSome s := by
  unfold pathExists
  rw [wp_bind, wp_get, wp_pure]

/-- A file that bytes are being written to: some of them are there, and each content since the last
sync is an earlier one. -/
structure Grown (name : String) (file : StoredFile) (bytes : List UInt8) (count : Nat)
    (before after : Volume) : Prop where
  now : ∃ since, after.now name = some ⟨file.bytes ++ bytes.take count, since⟩ ∧
    ∀ content ∈ since, content ∈ file.contents ∨
      ∃ n ≤ count, content = file.bytes ++ bytes.take n
  since : after.since name = before.since name

theorem grown_refl {volume : Volume} (h : volume.now name = some file) :
    Grown name file bytes 0 volume volume :=
  ⟨⟨file.since, by rw [h, take_zero, append_nil],
    fun content hcontent => .inl (mem_cons_of_mem _ hcontent)⟩, rfl⟩

/-- Halted or not, the bytes are written from the front. -/
theorem wp_write_all (hname : name ∈ names) (h : s.state.now name = some file) :
    wp (writeAll name bytes)
      (fun _ s' => Grown name file bytes bytes.length s.state s'.state ∧ Done names s s')
      (fun e s' => (∃ count, Grown name file bytes count s.state s'.state) ∧ Cut names s e s')
      s := by
  unfold writeAll
  refine wp_for_each (fun written s' => Grown name file bytes written.length s.state s'.state ∧
    Done names s s') bytes ?_ ?_
  · rintro written byte later hbytes s₁ ⟨hgrown, hdone⟩
    have hfront : bytes.take written.length = written := by
      rw [hbytes, take_left]
    have hnext : bytes.take (written ++ [byte]).length = written ++ [byte] := by
      rw [show bytes = (written ++ [byte]) ++ later by rw [hbytes, append_assoc]; rfl,
        take_left]
    refine wp_step (fun s₂ hstate hreaches => ?_) fun e s₂ hstate hhalted => ?_
    · obtain ⟨⟨since, hnow, hcontents⟩, hsince⟩ := hgrown
      refine ⟨⟨⟨(file.bytes ++ written) :: since, ?_, ?_⟩, by rw [hstate]; exact hsince⟩,
        hdone.trans ⟨by rw [hstate]; exact quiet_modify hname, hreaches⟩⟩
      · rw [hstate, now_append_byte_self, hnow, hfront, hnext, ← append_assoc]
        rfl
      · rintro content hcontent
        rcases mem_cons.1 hcontent with rfl | hcontent
        · exact .inr ⟨written.length, by simp, by rw [hfront]⟩
        · rcases hcontents content hcontent with hold | ⟨n, hle, heq⟩
          · exact .inl hold
          · exact .inr ⟨n, by rw [length_append]; omega, heq⟩
    · exact ⟨⟨_, hstate ▸ hgrown⟩, hstate ▸ hdone.quiet, hhalted.later hdone.reaches⟩
  · exact ⟨grown_refl h, done_refl names s⟩

/-- `write_file_sync` writes durable bytes. -/
theorem wp_write_file_sync (hname : name ∈ names) (bytes : List UInt8) :
    wp (writeFileSync name bytes)
      (fun _ s' => s'.state.now name = some (.durable bytes) ∧ Done names s s')
      (Cut names s) s := by
  unfold writeFileSync openWrite syncFile
  rw [wp_bind]
  refine wp_mono (wp_change (quiet_open_write hname)) (fun _ s₁ hpost => ?_)
    fun _ _ h => h
  obtain ⟨hs₁, h₁⟩ := hpost
  obtain ⟨since, hnow⟩ := @now_open_write_self s.state name
  rw [← hs₁] at hnow
  rw [wp_bind]
  refine wp_mono (wp_write_all hname hnow) (fun _ s₂ hpost => ?_)
    fun _ _ h => h₁.cut h.2
  obtain ⟨hwritten, h₂⟩ := hpost
  refine wp_mono (wp_change (quiet_modify hname)) (fun _ s₃ hpost => ?_)
    fun _ _ h => (h₁.trans h₂).cut h
  obtain ⟨hs₃, h₃⟩ := hpost
  obtain ⟨later, hlater, -⟩ := hwritten.now
  refine ⟨?_, (h₁.trans h₂).trans h₃⟩
  rw [hs₃, now_sync_file_self, hlater, take_length]
  rfl

/-- `append_file_sync` on a file that is there. When it returns the file is durable; when it is
halted some of the bytes are behind the file. -/
theorem wp_append_file_sync (h : s.state.now name = some file) (bytes : List UInt8) :
    wp (appendFileSync name bytes)
      (fun _ s' => s'.state.now name = some (.durable (file.bytes ++ bytes)) ∧
        s'.state.since name = s.state.since name ∧ Done [name] s s')
      (fun e s' => (∃ count, Grown name file bytes count s.state s'.state) ∧ Cut [name] s e s')
      s := by
  have hname : name ∈ [name] := mem_singleton_self name
  unfold appendFileSync openAppend syncFile
  rw [wp_bind, wp_bind, wp_path_exists, h]
  refine wp_step (fun s₁ hs₁ hreaches => ?_) fun e s₁ hs₁ hhalted => ?_
  · have hsame : s₁.state = s.state := hs₁
    have h₁ : Done [name] s s₁ := ⟨hsame ▸ quiet_refl [name] s.state, hreaches⟩
    rw [wp_bind]
    refine wp_mono (wp_write_all hname (hsame ▸ h)) (fun _ s₂ hpost => ?_)
      fun _ _ hcut => ⟨hsame ▸ hcut.1, h₁.cut hcut.2⟩
    obtain ⟨hgrown, h₂⟩ := hpost
    rw [hsame] at hgrown
    refine wp_step (fun s₃ hs₃ hreaches => ?_) fun e s₃ hs₃ hhalted => ?_
    · have hquiet : Volume.Quiet [name] s₂.state s₃.state := hs₃ ▸ quiet_modify hname
      obtain ⟨⟨since, hnow, -⟩, hsince⟩ := hgrown
      refine ⟨?_, ?_, (h₁.trans h₂).trans ⟨hquiet, hreaches⟩⟩
      · rw [hs₃, now_sync_file_self, hnow, take_length]
        rfl
      · rw [hs₃]
        exact hsince
    · exact ⟨⟨_, hs₃ ▸ hgrown⟩, hs₃ ▸ (h₁.trans h₂).quiet,
        hhalted.later (h₁.trans h₂).reaches⟩
  · have hsame : s₁.state = s.state := hs₁
    rw [hsame]
    exact ⟨⟨_, grown_refl h⟩, hsame ▸ quiet_refl [name] s.state, hhalted⟩

theorem wp_open_append (hname : name ∈ names) :
    wp (openAppend name) (fun _ s' => Done names s s') (Cut names s) s := by
  unfold openAppend
  rw [wp_bind, wp_path_exists]
  cases s.state.now name with
  | none =>
      exact wp_mono (wp_change (quiet_put hname)) (fun _ _ hpost => hpost.2) fun _ _ h => h
  | some file =>
      exact wp_mono (wp_touch names) (fun _ _ hpost => hpost.2) fun _ _ h => h

theorem wp_remove_file_if_exists (hname : name ∈ names) :
    wp (removeFileIfExists name) (fun _ s' => s'.state.now name = none ∧ Done names s s')
      (Cut names s) s := by
  unfold removeFileIfExists
  rw [wp_bind, wp_path_exists]
  cases h : s.state.now name with
  | none =>
      exact ⟨h, done_refl names s⟩
  | some file =>
      refine wp_mono (wp_change (quiet_remove hname)) (fun _ s' hpost => ?_)
        fun _ _ h => h
      obtain ⟨hs', hdone⟩ := hpost
      exact ⟨by rw [hs']; exact now_put_self, hdone⟩

/-- A name that was free belongs to the process, which sees an empty file there. -/
theorem wp_create_file_exclusive (name : String) :
    wp (createFileExclusive name)
      (fun created s' => Done [name] s s' ∧ (created = false → s'.state = s.state) ∧
        (created = true → s.state.now name = none ∧ s'.state.now name = some (.durable [])))
      (fun e s' => s'.state = s.state ∧ Halted s e) s := by
  unfold createFileExclusive
  rw [wp_bind, wp_path_exists]
  cases h : s.state.now name with
  | none =>
      show wp (do
        step (put name (some (.durable [])))
        pure true) _ _ s
      rw [wp_bind]
      refine wp_step (fun s' hs' hreaches => ?_) fun e s' hs' hhalted => ⟨hs', hhalted⟩
      refine ⟨⟨hs' ▸ quiet_put (mem_singleton_self name), hreaches⟩,
        fun hfalse => absurd hfalse (by decide), fun _ => ⟨rfl, ?_⟩⟩
      rw [hs', now_put_self]
  | some file =>
      show wp (do
        touch
        pure false) _ _ s
      rw [wp_bind]
      refine wp_step (fun s' hs' hreaches => ?_) fun e s' hs' hhalted => ⟨hs', hhalted⟩
      exact ⟨⟨hs' ▸ quiet_refl [name] s.state, hreaches⟩, fun _ => hs',
        fun htrue => absurd htrue (by decide)⟩

theorem wp_atomic_replace {source target : String} (hsource : s.state.now source = some file)
    {Q : Unit → Scheduled Volume → Prop} {E : Fault String → Scheduled Volume → Prop}
    (hok : ∀ s' : Scheduled Volume, s'.state = s.state.rename source target → s.Reaches s' →
      Q () s')
    (herr : ∀ e (s' : Scheduled Volume), s'.state = s.state → Halted s e → E e s') :
    wp (atomicReplace source target) Q E s := by
  unfold atomicReplace
  rw [wp_bind, wp_path_exists, hsource]
  exact wp_step hok herr

/-! ## Replacing a file -/

/-- A name leads to what it led to before, or to a durable file as well. -/
structure Replaced (name : String) (bytes : List UInt8) (before after : Volume) : Prop where
  now : after.now name = before.now name ∨ after.now name = some (.durable bytes)
  entries : ∀ entry ∈ after.entries name,
    entry ∈ before.entries name ∨ entry = some (.durable bytes)

theorem replaced_of_quiet {before after : Volume} (h : Volume.Quiet names before after)
    (hname : name ∉ names) : Replaced name bytes before after :=
  ⟨.inl (h.now name hname), fun entry hentry => .inl (h.entries hname entry hentry)⟩

/-- A replacement is durable when it returns. When it is halted the name leads to the file it led to
before or to the new one. -/
theorem wp_replace_file {temporary : String} (hne : name ≠ temporary) (bytes : List UInt8) :
    wp (replaceFile temporary name bytes)
      (fun _ s' => s'.state.now name = some (.durable bytes) ∧ s'.state.since = (fun _ => []) ∧
        Done [temporary, name] s s')
      (fun e s' => Replaced name bytes s.state s'.state ∧ Cut [temporary, name] s e s') s := by
  have hold : name ∉ [temporary] := by simpa using hne
  have hnames : ∀ other ∈ [temporary], other ∈ [temporary, name] := fun other hother =>
    mem_cons.2 (.inl (mem_singleton.1 hother))
  unfold replaceFile
  rw [wp_bind]
  refine wp_mono (wp_write_file_sync (mem_singleton_self temporary) bytes)
    (fun _ s₁ hpost => ?_) fun _ s₁ hcut =>
      ⟨replaced_of_quiet hcut.quiet hold, hcut.quiet.weaken hnames, hcut.halted⟩
  obtain ⟨hwritten, h₁⟩ := hpost
  have hwide : Done [temporary, name] s s₁ := ⟨h₁.quiet.weaken hnames, h₁.reaches⟩
  rw [wp_bind]
  refine wp_atomic_replace hwritten (fun s₂ hs₂ hreaches => ?_) fun e s₂ hs₂ hhalted =>
    ⟨hs₂ ▸ replaced_of_quiet h₁.quiet hold, hs₂ ▸ hwide.quiet, hhalted.later hwide.reaches⟩
  have h₂ : Done [temporary, name] s s₂ := hwide.trans
    ⟨hs₂ ▸ quiet_rename (by simp) (by simp), hreaches⟩
  have hnow : s₂.state.now name = some (.durable bytes) := by
    rw [hs₂, now_rename_target hne, hwritten]
  refine wp_step (fun s₃ hs₃ hreaches => ?_) fun e s₃ hs₃ hhalted => ?_
  · refine ⟨?_, ?_, h₂.trans ⟨hs₃ ▸ quiet_sync_directory, hreaches⟩⟩
    · rw [hs₃]
      exact hnow
    · rw [hs₃]
      rfl
  · refine ⟨hs₃ ▸ ⟨.inr hnow, fun entry hentry => ?_⟩, hs₃ ▸ h₂.quiet,
      hhalted.later h₂.reaches⟩
    -- Between the rename and the barrier both files may be there after a crash.
    rcases mem_cons.1 hentry with rfl | hsince
    · exact .inr hnow
    · rw [hs₂, since_rename_target hne] at hsince
      exact .inl (h₁.quiet.entries hold entry hsince)

/-! ## Claiming a name -/

/-- The names that a program touches which claims one of some names. -/
def claimed (names : List String) (touched : String → List String) (volume : Volume) :
    List String :=
  (names.filter fun name => (volume.now name).isNone).flatMap touched

theorem mem_claimed {volume : Volume} {touched : String → List String} {other : String} :
    other ∈ claimed names touched volume ↔
      ∃ name ∈ names, volume.now name = none ∧ other ∈ touched name := by
  simp [claimed, mem_flatMap, and_assoc]

/-- One of the names that were free is built under, or nothing is left of the attempt but what the
build touches. -/
theorem wp_claim_exclusive {message : String} {build clean : String → VolumeM Unit}
    {touched : String → List String} {Built : String → Volume → Prop}
    (htouched : ∀ name, name ∈ touched name)
    (hbuild : ∀ name (s : Scheduled Volume), s.state.now name = some (.durable []) →
      wp (build name) (fun _ s' => Built name s'.state ∧ Done (touched name) s s')
        (fun _ s' => Volume.Quiet (touched name) s.state s'.state) s)
    (hsync : ∀ name volume, Built name volume → Built name volume.syncDirectory)
    (hclean : ∀ name (s : Scheduled Volume), wp (clean name)
      (fun _ s' => Volume.Quiet (touched name) s.state s'.state)
      (fun _ s' => Volume.Quiet (touched name) s.state s'.state) s) :
    wp (claimExclusive message build clean names)
      (fun name s' => name ∈ names ∧ s.state.now name = none ∧ Built name s'.state ∧
        s'.state.since = (fun _ => []) ∧ Done (claimed names touched s.state) s s')
      (fun _ s' => Volume.Quiet (claimed names touched s.state) s.state s'.state) s := by
  induction names generalizing s with
  | nil => exact quiet_refl _ _
  | cons name names ih =>
      unfold claimExclusive
      rw [wp_bind]
      refine wp_mono (wp_create_file_exclusive name) (fun created s₁ hpost => ?_)
        fun e s₁ hhalted => hhalted.1 ▸ quiet_refl _ _
      obtain ⟨h₁, hsame, hfree⟩ := hpost
      have hmore : ∀ other ∈ claimed names touched s.state,
          other ∈ claimed (name :: names) touched s.state := by
        intro other hother
        obtain ⟨next, hnext, hnow, hmem⟩ := mem_claimed.1 hother
        exact mem_claimed.2 ⟨next, mem_cons_of_mem name hnext, hnow, hmem⟩
      cases created with
      | false =>
          have heq := hsame rfl
          rw [if_neg (by decide)]
          refine wp_mono ih (fun next s' hpost => ?_) fun _ s' hquiet => ?_
          · obtain ⟨hnext, hnow, hbuilt, hsince, hdone⟩ := hpost
            have hquiet := hdone.quiet
            rw [heq] at hnow hquiet
            exact ⟨mem_cons_of_mem name hnext, hnow, hbuilt, hsince, hquiet.weaken hmore,
              schedule_trans h₁.reaches hdone.reaches⟩
          · rw [heq] at hquiet
            exact hquiet.weaken hmore
      | true =>
          obtain ⟨hnow, hempty⟩ := hfree rfl
          have htouch : ∀ other ∈ touched name,
              other ∈ claimed (name :: names) touched s.state := fun other hother =>
            mem_claimed.2 ⟨name, mem_cons_self, hnow, hother⟩
          have hcreated : Volume.Quiet (touched name) s.state s₁.state :=
            h₁.quiet.weaken fun other hother => mem_singleton.1 hother ▸ htouched name
          rw [if_pos rfl, wp_recovering]
          -- What was built so far is cleaned up, unless the process died.
          have hfail : ∀ e (s' : Scheduled Volume), Volume.Quiet (touched name) s.state s'.state →
              (e = .crash →
                Volume.Quiet (claimed (name :: names) touched s.state) s.state s'.state) ∧
              (e ≠ .crash → wp (do
                clean name
                syncDirectory
                raise e : VolumeM String) (fun next s' => next ∈ name :: names ∧
                  s.state.now next = none ∧ Built next s'.state ∧ s'.state.since = (fun _ => []) ∧
                  Done (claimed (name :: names) touched s.state) s s')
                (fun _ s' =>
                  Volume.Quiet (claimed (name :: names) touched s.state) s.state s'.state) s') := by
            intro e s' hquiet
            refine ⟨fun _ => hquiet.weaken htouch, fun _ => ?_⟩
            rw [wp_bind]
            refine wp_mono (hclean name s') (fun _ s₂ h₂ => ?_)
              fun _ s₂ h₂ => (hquiet.trans h₂).weaken htouch
            rw [wp_bind]
            refine wp_step (fun s₃ hs₃ _ => ?_) fun _ s₃ hs₃ _ => ?_
            · rw [wp_raise, hs₃]
              exact ((hquiet.trans h₂).trans quiet_sync_directory).weaken htouch
            · rw [hs₃]
              exact (hquiet.trans h₂).weaken htouch
          rw [wp_bind]
          refine wp_mono (hbuild name s₁ hempty) (fun _ s₂ hpost => ?_)
            fun e s₂ h₂ => hfail e s₂ (hcreated.trans h₂)
          obtain ⟨hbuilt, h₂⟩ := hpost
          rw [wp_bind]
          refine wp_step (fun s₃ hs₃ hreaches => ?_) fun e s₃ hs₃ _ =>
            hfail e s₃ (hs₃ ▸ hcreated.trans h₂.quiet)
          rw [wp_pure, hs₃]
          exact ⟨mem_cons_self, hnow, hsync name _ hbuilt, rfl,
            hs₃ ▸ ((hcreated.trans h₂.quiet).trans quiet_sync_directory).weaken htouch,
            schedule_trans h₁.reaches (schedule_trans h₂.reaches hreaches)⟩

end

end Akasha.Storage.Durable

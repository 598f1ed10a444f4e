import Mathlib.Data.List.Basic
import Mathlib.Logic.Function.Basic

/-!
# Directories with files that grow

A process that appends to a file leaves a prefix of what it meant to write, and never less than what
it had synced. So a file keeps, beside its bytes, every content it had since it was last synced, and
a directory keeps, beside the file that a name leads to, every file it led to since the directory
was last synced. A crash leaves for each name any of them, whatever it leaves for the other names.

Programs change few names and now and then make all of them durable: `Quiet` is what a program does
to the other names. `Always` is what holds of each file that a name may lead to after a crash, and
`Fixed` says that there is one content only.
-/

namespace Akasha.Lib

/-- The content of a directory: the bytes of the file that a name leads to. -/
abbrev Files := String → Option (List UInt8)

/-- A file: its bytes, and what it held since it was last synced. -/
structure StoredFile where
  bytes : List UInt8
  since : List (List UInt8)
deriving DecidableEq, Repr

namespace StoredFile

/-- A file that is durable. -/
def durable (bytes : List UInt8) : StoredFile := ⟨bytes, []⟩

/-- Change the bytes of a file. -/
def rewrite (change : List UInt8 → List UInt8) (file : StoredFile) : StoredFile :=
  ⟨change file.bytes, file.bytes :: file.since⟩

/-- Make the bytes of a file durable. -/
def sync (file : StoredFile) : StoredFile := ⟨file.bytes, []⟩

/-- What a crash may leave of a file. -/
def contents (file : StoredFile) : List (List UInt8) :=
  file.bytes :: file.since

@[simp] theorem contents_durable (bytes : List UInt8) : (durable bytes).contents = [bytes] := rfl

@[simp] theorem bytes_durable (bytes : List UInt8) : (durable bytes).bytes = bytes := rfl

end StoredFile

/-- A directory: the file that each name leads to, and those it led to since the last sync. -/
structure Volume where
  now : String → Option StoredFile
  since : String → List (Option StoredFile)

/-- What a crash may leave of a name that led to a file, or to none. -/
def MayLeave (entry : Option StoredFile) (content : Option (List UInt8)) : Prop :=
  match entry with
  | none => content = none
  | some file => ∃ bytes ∈ file.contents, content = some bytes

namespace Volume

/-- A directory whose files are all durable. -/
def ofFiles (files : Files) : Volume :=
  ⟨fun name => (files name).map .durable, fun _ => []⟩

/-- The content that the process sees. -/
def files (volume : Volume) : Files :=
  fun name => (volume.now name).map (·.bytes)

/-- Everything that a name may lead to after a crash. -/
def entries (volume : Volume) (name : String) : List (Option StoredFile) :=
  volume.now name :: volume.since name

/-- The contents that a crash may leave. -/
def Survives (volume : Volume) (files : Files) : Prop :=
  ∀ name, ∃ entry ∈ volume.entries name, MayLeave entry (files name)

/-- The oldest contents that a crash may leave. -/
def oldest (volume : Volume) : Files := fun name =>
  ((volume.entries name).getLast (List.cons_ne_nil _ _)).map fun file =>
    file.contents.getLast (List.cons_ne_nil _ _)

/-! ## Changes -/

/-- Let a name lead to another file, or to none. -/
def put (name : String) (entry : Option StoredFile) (volume : Volume) : Volume where
  now := Function.update volume.now name entry
  since := Function.update volume.since name (volume.entries name)

/-- Change the file that a name leads to. -/
def modify (name : String) (change : StoredFile → StoredFile) (volume : Volume) : Volume :=
  { volume with now := Function.update volume.now name ((volume.now name).map change) }

/-- Open a file for writing: it is empty, and new if there was none. -/
def openWrite (name : String) (volume : Volume) : Volume :=
  if (volume.now name).isSome then volume.modify name (·.rewrite fun _ => [])
  else volume.put name (some (.durable []))

/-- Write one byte behind the bytes of a file. -/
def appendByte (name : String) (byte : UInt8) : Volume → Volume :=
  modify name (·.rewrite (· ++ [byte]))

/-- Cut a file. -/
def truncate (name : String) (length : Nat) : Volume → Volume :=
  modify name (·.rewrite (·.take length))

/-- Make the bytes of a file durable. -/
def syncFile (name : String) : Volume → Volume :=
  modify name StoredFile.sync

def remove (name : String) : Volume → Volume :=
  put name none

/-- Rename a file over another one. -/
def rename (source target : String) (volume : Volume) : Volume :=
  (volume.put target (volume.now source)).put source none

/-- Make the names durable. -/
def syncDirectory (volume : Volume) : Volume :=
  { volume with since := fun _ => [] }

variable {volume : Volume} {name other : String} {entry : Option StoredFile}

/-! ## What a name leads to -/

@[simp] theorem now_put_self : (volume.put name entry).now name = entry := by
  simp [put]

theorem now_put_of_ne (h : other ≠ name) :
    (volume.put name entry).now other = volume.now other := by
  simp [put, h]

@[simp] theorem since_put_self : (volume.put name entry).since name = volume.entries name := by
  simp [put]

theorem since_put_of_ne (h : other ≠ name) :
    (volume.put name entry).since other = volume.since other := by
  simp [put, h]

variable {change : StoredFile → StoredFile}

@[simp] theorem now_modify_self :
    (volume.modify name change).now name = (volume.now name).map change := by
  simp [modify]

theorem now_modify_of_ne (h : other ≠ name) :
    (volume.modify name change).now other = volume.now other := by
  simp [modify, h]

@[simp] theorem since_modify :
    (volume.modify name change).since = volume.since := rfl

@[simp] theorem now_append_byte_self {byte : UInt8} :
    (volume.appendByte name byte).now name =
      (volume.now name).map (·.rewrite (· ++ [byte])) :=
  now_modify_self

@[simp] theorem now_truncate_self {length : Nat} :
    (volume.truncate name length).now name =
      (volume.now name).map (·.rewrite (·.take length)) :=
  now_modify_self

@[simp] theorem now_sync_file_self :
    (volume.syncFile name).now name = (volume.now name).map .sync :=
  now_modify_self

@[simp] theorem now_sync_directory : volume.syncDirectory.now = volume.now := rfl

@[simp] theorem since_sync_directory : volume.syncDirectory.since name = [] := rfl

@[simp] theorem files_sync_directory : volume.syncDirectory.files = volume.files := rfl

theorem now_open_write_self :
    ∃ since, (volume.openWrite name).now name = some ⟨[], since⟩ := by
  unfold openWrite
  cases h : volume.now name with
  | none =>
      rw [if_neg (by simp), now_put_self]
      exact ⟨[], rfl⟩
  | some file =>
      rw [if_pos (by simp), now_modify_self, h]
      exact ⟨_, rfl⟩

theorem now_rename_target {source target : String} (h : target ≠ source) :
    (volume.rename source target).now target = volume.now source := by
  rw [rename, now_put_of_ne h, now_put_self]

theorem since_rename_target {source target : String} (h : target ≠ source) :
    (volume.rename source target).since target = volume.entries target := by
  rw [rename, since_put_of_ne h, since_put_self]

@[simp] theorem files_of_files (files : Files) : (ofFiles files).files = files := by
  funext name
  show ((files name).map _).map _ = files name
  cases files name <;> rfl

/-! ## What a name may always lead to -/

/-- All files that a name may lead to after a crash have a property. -/
def Always (P : Option StoredFile → Prop) (volume : Volume) (name : String) : Prop :=
  ∀ entry ∈ volume.entries name, P entry

/-- A name leads to one durable content, or to nothing, whatever happens. -/
def Fixed (volume : Volume) (name : String) (content : Option (List UInt8)) : Prop :=
  volume.Always (· = content.map .durable) name

variable {P P' : Option StoredFile → Prop} {content : Option (List UInt8)}

theorem Always.now (h : volume.Always P name) : P (volume.now name) :=
  h _ List.mem_cons_self

theorem Always.mono (h : volume.Always P name) (himp : ∀ entry, P entry → P' entry) :
    volume.Always P' name :=
  fun entry hentry => himp entry (h entry hentry)

theorem Fixed.now (h : volume.Fixed name content) :
    volume.now name = content.map .durable :=
  Always.now h

theorem Fixed.files (h : volume.Fixed name content) : volume.files name = content := by
  unfold Volume.files
  rw [h.now]
  cases content <;> rfl

theorem always_put_self :
    (volume.put name entry).Always P name ↔ P entry ∧ volume.Always P name := by
  simp [Always, entries, put]

@[simp] theorem always_sync_directory :
    volume.syncDirectory.Always P name ↔ P (volume.now name) := by
  simp [Always, entries, syncDirectory]

theorem fixed_of_files (files : Files) (name : String) :
    (ofFiles files).Fixed name (files name) := by
  simp [Fixed, Always, entries, ofFiles]

/-! ## Crashes -/

theorem may_leave_durable {left : Option (List UInt8)} :
    MayLeave (content.map .durable) left ↔ left = content := by
  cases content with
  | none => exact Iff.rfl
  | some bytes => simp [MayLeave]

theorem survives_files (volume : Volume) : volume.Survives volume.files := by
  refine fun name => ⟨volume.now name, List.mem_cons_self, ?_⟩
  unfold files
  cases volume.now name with
  | none => rfl
  | some file => exact ⟨file.bytes, List.mem_cons_self, rfl⟩

theorem survives_oldest (volume : Volume) : volume.Survives volume.oldest := by
  intro name
  have hmem : (volume.entries name).getLast (List.cons_ne_nil _ _) ∈ volume.entries name :=
    List.getLast_mem _
  refine ⟨_, hmem, ?_⟩
  unfold oldest
  cases (volume.entries name).getLast (List.cons_ne_nil _ _) with
  | none => rfl
  | some file => exact ⟨_, List.getLast_mem (List.cons_ne_nil _ _), rfl⟩

theorem Survives.fixed {files : Files} (h : volume.Survives files)
    (hfixed : volume.Fixed name content) : files name = content := by
  obtain ⟨entry, hentry, hleave⟩ := h name
  rw [hfixed entry hentry] at hleave
  exact may_leave_durable.1 hleave

/-! ## Frames -/

/-- Only some names changed, and others may have become durable. -/
structure Quiet (names : List String) (before after : Volume) : Prop where
  now : ∀ name, name ∉ names → after.now name = before.now name
  since : ∀ name, name ∉ names → after.since name ⊆ before.since name

variable {names : List String} {before after : Volume}

theorem quiet_refl (names : List String) (volume : Volume) : Quiet names volume volume :=
  ⟨fun _ _ => rfl, fun _ _ _ h => h⟩

theorem Quiet.trans {first second third : Volume} (h : Quiet names first second)
    (h' : Quiet names second third) : Quiet names first third where
  now name hname := (h'.now name hname).trans (h.now name hname)
  since name hname := List.Subset.trans (h'.since name hname) (h.since name hname)

theorem Quiet.weaken {more : List String} (h : Quiet names before after)
    (hmore : ∀ name ∈ names, name ∈ more) : Quiet more before after where
  now name hname := h.now name fun hmem => hname (hmore name hmem)
  since name hname := h.since name fun hmem => hname (hmore name hmem)

theorem Quiet.always (h : Quiet names before after) (hname : name ∉ names)
    (halways : before.Always P name) : after.Always P name := by
  intro entry hentry
  rcases List.mem_cons.1 hentry with rfl | hsince
  · rw [h.now name hname]
    exact halways.now
  · exact halways entry (List.mem_cons_of_mem _ (h.since name hname hsince))

theorem Quiet.fixed (h : Quiet names before after) (hname : name ∉ names)
    (hfixed : before.Fixed name content) : after.Fixed name content :=
  h.always hname hfixed

theorem Quiet.files (h : Quiet names before after) (hname : name ∉ names) :
    after.files name = before.files name := by
  rw [Volume.files, Volume.files, h.now name hname]

theorem Quiet.entries (h : Quiet names before after) (hname : name ∉ names) :
    ∀ entry ∈ after.entries name, entry ∈ before.entries name :=
  h.always hname fun _ hentry => hentry

theorem quiet_put (hname : name ∈ names) : Quiet names volume (volume.put name entry) where
  now other hother := now_put_of_ne fun heq => hother (heq ▸ hname)
  since other hother := by
    have hne : other ≠ name := fun heq => hother (heq ▸ hname)
    rw [since_put_of_ne hne]
    exact List.Subset.refl _

theorem quiet_modify (hname : name ∈ names) :
    Quiet names volume (volume.modify name change) where
  now _ hother := now_modify_of_ne fun heq => hother (heq ▸ hname)
  since _ _ := List.Subset.refl _

theorem quiet_open_write (hname : name ∈ names) :
    Quiet names volume (volume.openWrite name) := by
  unfold openWrite
  split
  · exact quiet_modify hname
  · exact quiet_put hname

theorem quiet_remove (hname : name ∈ names) : Quiet names volume (volume.remove name) :=
  quiet_put hname

theorem quiet_rename {source target : String} (hsource : source ∈ names)
    (htarget : target ∈ names) : Quiet names volume (volume.rename source target) :=
  (quiet_put htarget).trans (quiet_put hsource)

theorem quiet_sync_directory : Quiet names volume volume.syncDirectory :=
  ⟨fun _ _ => rfl, fun _ _ => List.nil_subset _⟩

end Volume

end Akasha.Lib

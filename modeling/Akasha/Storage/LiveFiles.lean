import Akasha.Storage.FileLeases
import Mathlib.Algebra.Order.Ring.Nat

/-!
# No live file is removed

A file is live while the published manifest or a pinned generation references it. The invariant
behind the result has three parts. Names are never used again by a later manifest: a checkpoint
names its files by a sequence or a generation above everything published, and the output of a
compaction can only be published while its captured segments still lead, which is over once an
output of the same generation has been. A pinned lease holds exactly the files of its manifest.
And what is queued or held by a lease that is given up has been published and is no longer
referenced, so a removal has to fear nothing but a pin, whose lock it then meets.

The one exception is a manifest of version 1, whose generation is 0: a pin of generation 0 takes
no lease.
-/

namespace Akasha.Storage

open Lib Function FileState List

namespace FileState

/-! ## Live files -/

/-- Some published manifest referenced the name. -/
def Ever (s : FileState) (name : FileName) : Prop :=
  ∃ generation manifest, s.history generation = some manifest ∧ name ∈ manifest.names

/-- A pinned generation references the name. -/
def Pinned (s : FileState) (name : FileName) : Prop :=
  ∃ pin ∈ s.pins, ∃ manifest, s.history pin.generation = some manifest ∧ name ∈ manifest.names

/-- The published manifest or a pinned generation references the name. -/
def Live (s : FileState) (name : FileName) : Prop :=
  name ∈ s.referenced ∨ s.Pinned name

/-- The captured segments of a job still lead the published ones. -/
def Publishable (s : FileState) (job : CompactionJob) : Prop :=
  ∃ current, s.manifest = some current ∧ job.captured.segments <+: current.segments

end FileState

/-- A name that a manifest may have: its sequence is covered or its generation published. -/
def FileName.Old (manifest : Manifest) : FileName → Prop
  | .segmentBase sequence | .segmentDelta sequence | .sparseBase sequence
  | .sparseDelta sequence => sequence ≤ manifest.lastSequence
  | .pointBase _ generation _ | .pointDelta _ generation _ | .segmentCompact generation _
  | .sparseCompact generation _ | .hnsw _ generation _ => generation ≤ manifest.generation
  | .hnswLegacy _ | .other _ => True

/-- The name of an index sidecar. -/
def FileName.isGraph : FileName → Bool
  | .hnsw .. | .hnswLegacy _ => true
  | _ => false

/-- The generation that a compaction named its output for. -/
def FileName.target : FileName → Option Nat
  | .segmentCompact generation _ | .sparseCompact generation _ => some generation
  | _ => none

/-- What the program ensures of the names of a manifest. -/
structure WellNamed (manifest : Manifest) : Prop where
  nodup : manifest.names.Nodup
  old : ∀ name ∈ manifest.names, name.Old manifest
  graph : ∀ reference, manifest.hnsw = some reference → reference.name.isGraph
  segments_ne : manifest.segments ≠ []
  single : manifest.generation = 0 → manifest.segments.length = 1

/-! ## The invariant -/

/-- The published manifests. -/
structure Published (s : FileState) : Prop where
  generation : ∀ g manifest, s.history g = some manifest →
    manifest.generation = g ∧ WellNamed manifest
  bound : ∀ g manifest, s.history g = some manifest →
    ∃ current, s.manifest = some current ∧ g ≤ current.generation
  current : ∀ current, s.manifest = some current → s.history current.generation = some current
  old : ∀ current name, s.manifest = some current → s.Ever name → name.Old current
  present : ∀ name ∈ s.referenced, (s.directory name).isSome ∨ name.isGraph

/-- A pin of a generation holds exactly the files of its manifest; generation 0 has none. -/
structure Covered (s : FileState) (pin : GenerationPin) : Prop where
  zero : pin.generation = 0 → pin.lease = none ∧ s.history 0 = none
  lease : pin.generation ≠ 0 → ∃ lease manifest, pin.lease = some lease ∧
    s.history pin.generation = some manifest ∧
    (∀ file ∈ lease.files, s.directory file.1 = some file.2 ∧ file.1 ∈ manifest.names) ∧
    ∀ name ∈ manifest.names, (∃ file, (name, file) ∈ lease.files) ∨
      (s.directory name = none ∧ name.isGraph)

/-- A file of a lease that is given up: it has been published, what the lease has read of the
manifest is still true of it, and while it is live it is the one the lease was taken on. -/
structure Released (s : FileState) (task : Reclamation) (file : FileName × Nat) : Prop where
  ever : s.Ever file.1
  unreferenced : ∀ names, task.referenced = some names → file.1 ∉ names → file.1 ∉ s.referenced
  same : s.Live file.1 → s.directory file.1 = some file.2

/-- A job: its outputs are not live, and while it can be published they are new. -/
structure JobSound (s : FileState) (job : CompactionJob) : Prop where
  captured : s.history job.captured.generation = some job.captured
  target : ∀ name ∈ job.outputs, name.target = some (job.captured.generation + 1)
  dead : ∀ name ∈ job.outputs, ¬ s.Live name
  ready : s.Publishable job → ∀ name ∈ job.outputs, ¬ s.Ever name ∧ (s.directory name).isSome

/-- The invariant of all runs. -/
structure Sound (s : FileState) : Prop where
  published : Published s
  retired : ∀ name ∈ s.retired, s.Ever name ∧ name ∉ s.referenced
  released : ∀ task ∈ s.reclaiming, ∀ file ∈ task.files, Released s task file
  covered : ∀ pin ∈ s.pins, Covered s pin
  jobs : ∀ (id : Nat) job, s.jobs[id]? = some job → JobSound s job
  apart : ∀ (id : Nat) job (id' : Nat) job', s.jobs[id]? = some job → s.jobs[id']? = some job' →
    id ≠ id' → s.Publishable job → ∀ name ∈ job.outputs, name ∉ job'.outputs
  superseded : ∀ name g, s.Ever name → name.target = some (g + 1) →
    ∀ manifest, s.history g = some manifest →
    ∀ current, s.manifest = some current → ¬ manifest.segments <+: current.segments

/-- A step to a sound state that leaves every live file where it is. -/
structure Advances (s s' : FileState) : Prop where
  sound : Sound s'
  keeps : ∀ name, s.Live name → s'.directory name = s.directory name

variable {manifest : Manifest}

namespace Sound

variable {s : FileState}

variable {name : FileName}

theorem ever_of_referenced (h : Published s) (hname : name ∈ s.referenced) :
    s.Ever name := by
  cases hmanifest : s.manifest with
  | none => simp [referenced, hmanifest] at hname
  | some current =>
      exact ⟨_, current, h.current current hmanifest, by simpa [referenced, hmanifest]
        using hname⟩

theorem ever_of_live (h : Published s) (hlive : s.Live name) :
    s.Ever name := by
  obtain hname | ⟨pin, -, manifest, hhistory, hname⟩ := hlive
  · exact ever_of_referenced h hname
  · exact ⟨_, manifest, hhistory, hname⟩

theorem locked_of_pinned (h : Sound s) {file : Nat} (hname : s.Pinned name)
    (hfile : s.directory name = some file) : s.locked file = true := by
  obtain ⟨pin, hpin, manifest, hhistory, hmem⟩ := hname
  have hcovered := h.covered pin hpin
  have hne : pin.generation ≠ 0 := by
    intro hzero
    rw [hzero, (hcovered.zero hzero).2] at hhistory
    cases hhistory
  obtain ⟨lease, manifest', hlease, hhistory', hfiles, hall⟩ := hcovered.lease hne
  have hsame : manifest' = manifest := Option.some.inj (hhistory'.symm.trans hhistory)
  subst hsame
  obtain ⟨file', hfile'⟩ | ⟨hnone, -⟩ := hall name hmem
  · have hsame : file' = file := Option.some.inj ((hfiles _ hfile').1.symm.trans hfile)
    subst hsame
    simp only [locked, any_eq_true]
    exact ⟨pin, hpin, by simpa [hlease] using ⟨name, hfile'⟩⟩
  · rw [hnone] at hfile
    cases hfile

/-! ## Changes of the directory alone -/

/-- A change of the directory that leaves live files and the outputs of publishable jobs. -/
theorem of_directory (h : Sound s) {directory : FileName → Option Nat} {nextFile : Nat}
    (hlive : ∀ name, s.Live name → directory name = s.directory name)
    (hjobs : ∀ (id : Nat) job, s.jobs[id]? = some job → s.Publishable job →
      ∀ name ∈ job.outputs, (directory name).isSome) :
    Sound { s with directory, nextFile } where
  published :=
    { generation := h.published.generation
      bound := h.published.bound
      current := h.published.current
      old := h.published.old
      present := by
        intro name hname
        show (directory name).isSome ∨ _
        rw [hlive name (.inl hname)]
        exact h.published.present name hname }
  retired := h.retired
  released := by
    intro task htask file hfile
    have hreleased := h.released task htask file hfile
    exact ⟨hreleased.ever, hreleased.unreferenced, fun hl =>
      (hlive _ hl).trans (hreleased.same hl)⟩
  covered := by
    intro pin hpin
    refine ⟨(h.covered pin hpin).zero, fun hne => ?_⟩
    obtain ⟨lease, manifest, hlease, hhistory, hfiles, hall⟩ := (h.covered pin hpin).lease hne
    refine ⟨lease, manifest, hlease, hhistory, fun file hfile => ?_, fun name hname => ?_⟩
    · have hsame := hlive _ (.inr ⟨pin, hpin, manifest, hhistory, (hfiles file hfile).2⟩)
      exact ⟨hsame.trans (hfiles file hfile).1, (hfiles file hfile).2⟩
    · have hsame := hlive _ (.inr ⟨pin, hpin, manifest, hhistory, hname⟩)
      exact (hall name hname).imp_right fun hnone => ⟨hsame.trans hnone.1, hnone.2⟩
  jobs := by
    intro id job hjob
    have hsound := h.jobs id job hjob
    exact ⟨hsound.captured, hsound.target, hsound.dead, fun hready name hname =>
      ⟨(hsound.ready hready name hname).1, hjobs id job hjob hready name hname⟩⟩
  apart := h.apart
  superseded := h.superseded

theorem keeps_update {content : Option Nat} (hname : ¬ s.Live name) :
    ∀ other, s.Live other →
      update s.directory name content other = s.directory other :=
  fun other hother => update_of_ne (fun heq : other = name => hname (heq ▸ hother)) _ _

theorem create (h : Sound s) (hname : ¬ s.Live name) :
    Advances s (s.create name) := by
  refine ⟨h.of_directory (keeps_update hname) fun id job hjob hready other hother => ?_,
    keeps_update hname⟩
  · by_cases heq : other = name
    · simp [heq]
    · rw [update_of_ne heq]
      exact ((h.jobs id job hjob).ready hready other hother).2

theorem unlink (h : Sound s) (hname : ¬ s.Live name)
    (hjobs : ∀ (id : Nat) job, s.jobs[id]? = some job → s.Publishable job →
      name ∉ job.outputs) : Advances s (s.unlink name) := by
  refine ⟨h.of_directory (keeps_update hname) fun id job hjob hready other hother => ?_,
    keeps_update hname⟩
  · rw [update_of_ne fun heq : other = name =>
      hjobs id job hjob hready (heq ▸ hother)]
    exact ((h.jobs id job hjob).ready hready other hother).2

theorem not_output_of_ever (h : Sound s) (hever : s.Ever name) :
    ∀ (id : Nat) job, s.jobs[id]? = some job → s.Publishable job → name ∉ job.outputs :=
  fun id job hjob hready hname => ((h.jobs id job hjob).ready hready name hname).1 hever

theorem not_ever_of_follows (h : Published s) (hname : s.follows name) :
    ¬ s.Ever name := by
  intro hever
  obtain ⟨g, manifest, hhistory, hmem⟩ := id hever
  obtain ⟨current, hcurrent, -⟩ := h.bound g manifest hhistory
  have hold := h.old current name hcurrent hever
  cases name <;>
    simp [follows, covers, nextGeneration, hcurrent] at hname <;>
    simp only [FileName.Old] at hold <;> omega

theorem target_of_follows (hname : s.follows name) : name.target = none := by
  cases name <;> simp_all [follows, FileName.target]

theorem tryReclaimFile (h : Sound s) (hreferenced : name ∉ s.referenced)
    (hjobs : ∀ (id : Nat) job, s.jobs[id]? = some job → s.Publishable job →
      name ∉ job.outputs) : Advances s (s.tryReclaimFile name) := by
  unfold FileState.tryReclaimFile
  split
  · exact ⟨h, fun _ _ => rfl⟩
  · next file hfile =>
      split
      · exact ⟨h, fun _ _ => rfl⟩
      · next hlocked =>
          refine h.unlink ?_ hjobs
          rintro (hname | hname)
          · exact hreferenced hname
          · exact hlocked (h.locked_of_pinned hname hfile)

/-! ## Pins -/

/-- A change of the pins and of what is being reclaimed that makes nothing else live. -/
theorem of_pins (h : Sound s) {pins : List GenerationPin} {reclaiming : List Reclamation}
    (hcovered : ∀ pin ∈ pins, Covered s pin)
    (hlive : ∀ name, FileState.Pinned { s with pins } name → s.Live name)
    (hreleased : ∀ task ∈ reclaiming, ∀ file ∈ task.files, Released s task file) :
    Sound { s with pins, reclaiming } := by
  have hlive' : ∀ name, FileState.Live { s with pins, reclaiming } name → s.Live name :=
    fun name hname => hname.elim .inl (hlive name)
  exact
    { published := ⟨h.published.generation, h.published.bound, h.published.current,
        h.published.old, h.published.present⟩
      retired := h.retired
      released := fun task htask file hfile =>
        have hr := hreleased task htask file hfile
        ⟨hr.ever, hr.unreferenced, fun hl => hr.same (hlive' _ hl)⟩
      covered := fun pin hpin => ⟨(hcovered pin hpin).zero, (hcovered pin hpin).lease⟩
      jobs := fun id job hjob =>
        have hsound := h.jobs id job hjob
        ⟨hsound.captured, hsound.target, fun name hname hl => hsound.dead name hname (hlive' _ hl),
          hsound.ready⟩
      apart := h.apart
      superseded := h.superseded }

/-- What giving up one count leaves of the pins, and whose lease it gives up. -/
theorem release_pin_spec (owner generation : Nat) (pins : List GenerationPin) :
    (∀ pin' ∈ (releasePin owner generation pins).1, ∃ pin ∈ pins,
      pin'.generation = pin.generation ∧ pin'.lease = pin.lease) ∧
    ∀ lease, (releasePin owner generation pins).2 = some lease →
      ∃ pin ∈ pins, pin.lease = some lease := by
  induction pins with
  | nil => simp [releasePin]
  | cons pin pins ih =>
      simp only [releasePin]
      by_cases hmatch : pin.owner = owner ∧ pin.generation = generation
      · by_cases hcount : pin.count ≤ 1
        · simp only [hmatch, hcount, and_self, if_true]
          exact ⟨fun pin' hpin' => ⟨pin', by simp [hpin'], rfl, rfl⟩,
            fun lease hlease => ⟨pin, by simp, hlease⟩⟩
        · simp only [hmatch, hcount, and_self, if_true, if_false]
          refine ⟨fun pin' hpin' => ?_, nofun⟩
          rw [mem_cons] at hpin'
          obtain rfl | hpin' := hpin'
          · exact ⟨pin, by simp, hmatch.2.symm, rfl⟩
          · exact ⟨pin', by simp [hpin'], rfl, rfl⟩
      · simp only [hmatch, if_false]
        refine ⟨fun pin' hpin' => ?_, fun lease hlease => ?_⟩
        · rw [mem_cons] at hpin'
          obtain rfl | hpin' := hpin'
          · exact ⟨pin', by simp, rfl, rfl⟩
          · obtain ⟨old, hold, heq⟩ := ih.1 pin' hpin'
            exact ⟨old, by simp [hold], heq⟩
        · obtain ⟨old, hold, heq⟩ := ih.2 lease hlease
          exact ⟨old, by simp [hold], heq⟩

theorem covered_of_eq {pin pin' : GenerationPin} (h : Covered s pin)
    (hgeneration : pin'.generation = pin.generation) (hlease : pin'.lease = pin.lease) :
    Covered s pin' :=
  ⟨by rw [hgeneration, hlease]; exact h.zero, by rw [hgeneration, hlease]; exact h.lease⟩

theorem unpin (h : Sound s) (owner generation : Nat) : Sound (s.unpin owner generation) := by
  obtain ⟨hpins, hlease⟩ := release_pin_spec owner generation s.pins
  refine h.of_pins (fun pin' hpin' => ?_) ?_ ?_
  · obtain ⟨pin, hpin, hg, hl⟩ := hpins pin' hpin'
    exact covered_of_eq (h.covered pin hpin) hg hl
  · rintro name ⟨pin', hpin', manifest, hhistory, hname⟩
    obtain ⟨pin, hpin, hg, -⟩ := hpins pin' hpin'
    exact .inr ⟨pin, hpin, manifest, by rw [← hg]; exact hhistory, hname⟩
  · intro task htask file hfile
    rw [mem_append] at htask
    obtain htask | htask := htask
    · exact h.released task htask file hfile
    · -- the new task holds the files of the lease that was given up
      simp only [Option.mem_toList, Option.map_eq_some_iff] at htask
      obtain ⟨lease, hsome, rfl⟩ := htask
      obtain ⟨pin, hpin, hpinlease⟩ := hlease lease hsome
      have hne : pin.generation ≠ 0 := by
        intro hzero
        rw [((h.covered pin hpin).zero hzero).1] at hpinlease
        cases hpinlease
      obtain ⟨lease', manifest, hlease', hhistory, hfiles, -⟩ := (h.covered pin hpin).lease hne
      cases hlease'.symm.trans hpinlease
      have hin := hfiles file hfile
      exact ⟨⟨_, manifest, hhistory, hin.2⟩, nofun, fun _ => hin.1⟩

/-- A new lease holds exactly the files of the published manifest. -/
theorem lease_covers (h : Published s) {lease : ManifestFileLease} {owner count : Nat}
    (hhistory : s.history manifest.generation = some manifest)
    (hnames : ∀ name ∈ manifest.names, name ∈ s.referenced) (hne : manifest.generation ≠ 0)
    (hlease : s.leaseFiles manifest = some lease) :
    Covered s ⟨owner, manifest.generation, count, some lease⟩ := by
  refine ⟨fun hzero => absurd hzero hne, fun _ => ⟨lease, manifest, rfl, hhistory, ?_⟩⟩
  unfold leaseFiles at hlease
  split at hlease
  · cases hlease
    refine ⟨fun file hfile => ?_, fun name hname => ?_⟩
    · simp only [mem_filterMap, Option.map_eq_some_iff] at hfile
      obtain ⟨name, hname, number, hnumber, rfl⟩ := hfile
      exact ⟨hnumber, hname⟩
    · cases hfile : s.directory name with
      | none =>
          have hgraph := (h.present name (hnames name hname)).resolve_left (by simp [hfile])
          exact .inr ⟨rfl, hgraph⟩
      | some number =>
          refine .inl ⟨number, ?_⟩
          simp only [mem_filterMap]
          exact ⟨name, hname, by simp [hfile]⟩
  · cases hlease

variable {s' : FileState} {generation : Nat}

/-- A pin makes nothing live that was not: it is of the published manifest, or counts on. -/
theorem pin (h : Sound s) (hzero : generation = 0 → s.history 0 = none)
    (hpin : s.pin generation = some s') :
    Sound s' := by
  unfold FileState.pin at hpin
  split at hpin
  · cases hpin
    refine h.of_pins (fun pin' hpin' => ?_) ?_ h.released
    · obtain ⟨pin, hmem, rfl⟩ := mem_map.1 hpin'
      split
      · exact covered_of_eq (h.covered pin hmem) rfl rfl
      · exact h.covered pin hmem
    · rintro name ⟨pin', hpin', manifest, hhistory, hname⟩
      obtain ⟨pin, hmem, rfl⟩ := mem_map.1 hpin'
      refine .inr ⟨pin, hmem, manifest, ?_, hname⟩
      split at hhistory <;> exact hhistory
  · split at hpin
    · next hgeneration =>
        cases hpin
        have hnone := hzero hgeneration
        refine h.of_pins (fun pin hmem => ?_) ?_ h.released
        · rw [mem_append, mem_singleton] at hmem
          obtain hmem | rfl := hmem
          · exact h.covered pin hmem
          · exact ⟨fun _ => ⟨rfl, hnone⟩, fun hne => absurd rfl hne⟩
        · rintro name ⟨pin, hmem, manifest, hhistory, hname⟩
          rw [mem_append, mem_singleton] at hmem
          obtain hmem | rfl := hmem
          · exact .inr ⟨pin, hmem, manifest, hhistory, hname⟩
          · rw [show s.history 0 = none from hnone] at hhistory
            cases hhistory
    · next hgeneration =>
        simp only [Option.bind_eq_bind, Option.bind_eq_some_iff, guard_some, exists_unit,
          Option.some.injEq] at hpin
        obtain ⟨manifest, hmanifest, rfl, lease, hlease, rfl⟩ := hpin
        have hhistory := h.published.current manifest hmanifest
        have hnames : ∀ name ∈ manifest.names, name ∈ s.referenced := by
          intro name hname
          simpa [referenced, hmanifest] using hname
        refine h.of_pins (fun pin hmem => ?_) ?_ h.released
        · rw [mem_append, mem_singleton] at hmem
          obtain hmem | rfl := hmem
          · exact h.covered pin hmem
          · exact lease_covers h.published hhistory hnames hgeneration hlease
        · rintro name ⟨pin, hmem, manifest', hhistory', hname⟩
          rw [mem_append, mem_singleton] at hmem
          obtain hmem | rfl := hmem
          · exact .inr ⟨pin, hmem, manifest', hhistory', hname⟩
          · cases hhistory.symm.trans hhistory'
            exact .inl (hnames name hname)

/-! ## Publishing -/

/-- A manifest that may be published next. Its new names have never been published and have
files, a captured manifest that leads it led the published one, and no job has its names. -/
structure Succeeds (s : FileState) (next : Manifest) : Prop where
  generation : next.generation = s.nextGeneration
  lastSequence : ∀ previous, s.manifest = some previous →
    previous.lastSequence ≤ next.lastSequence
  nodup : next.names.Nodup
  graph : ∀ reference, next.hnsw = some reference → reference.name.isGraph
  segments_ne : next.segments ≠ []
  fresh : ∀ name ∈ next.names, name ∉ s.referenced →
    ¬ s.Ever name ∧ name.Old next ∧ (s.directory name).isSome
  leads : ∀ g manifest, s.history g = some manifest → manifest.segments <+: next.segments →
    ∃ current, s.manifest = some current ∧ manifest.segments <+: current.segments
  jobs : ∀ (id : Nat) job, s.jobs[id]? = some job → ∀ name ∈ job.outputs, name ∉ next.names
  target : ∀ name ∈ next.names, name ∉ s.referenced → ∀ g, name.target = some (g + 1) →
    ∀ manifest, s.history g = some manifest → ¬ manifest.segments <+: next.segments

theorem old_mono {first second : Manifest} (h : name.Old first)
    (hgeneration : first.generation ≤ second.generation)
    (hlast : first.lastSequence ≤ second.lastSequence) : name.Old second := by
  cases name <;> simp only [FileName.Old] at h ⊢ <;> omega

theorem target_le (h : name.Old manifest) (htarget : name.target = some generation) :
    generation ≤ manifest.generation := by
  cases name <;> simp_all [FileName.Old, FileName.target]

section

variable {next : Manifest}

theorem generation_lt (h : Published s) (hnext : Succeeds s next) {g : Nat}
    (hhistory : s.history g = some manifest) : g < next.generation := by
  obtain ⟨current, hcurrent, hle⟩ := h.bound g manifest hhistory
  rw [hnext.generation, nextGeneration, hcurrent]
  exact Nat.lt_succ_of_le hle

theorem old_next (h : Published s) (hnext : Succeeds s next)
    (hname : s.Ever name ∨ name ∈ next.names) : name.Old next := by
  by_cases hever : s.Ever name
  · obtain ⟨g, manifest, hhistory, -⟩ := id hever
    obtain ⟨current, hcurrent, -⟩ := h.bound g manifest hhistory
    refine old_mono (h.old current name hcurrent hever) ?_ (hnext.lastSequence current hcurrent)
    rw [hnext.generation, nextGeneration, hcurrent]
    exact Nat.le_succ _
  · exact (hnext.fresh name (hname.resolve_left hever) fun hmem =>
      hever (ever_of_referenced h hmem)).2.1

theorem history_publish (h : Published s) (hnext : Succeeds s next) {g : Nat}
    (hhistory : s.history g = some manifest) :
    (s.publish next).history g = some manifest :=
  (update_of_ne (generation_lt h hnext hhistory).ne _ _).trans hhistory

theorem ever_publish :
    (s.publish next).Ever name → s.Ever name ∨ name ∈ next.names := by
  rintro ⟨g, manifest, hhistory, hname⟩
  by_cases heq : g = next.generation
  · subst heq
    cases (update_self _ _ _).symm.trans hhistory
    exact .inr hname
  · exact .inl ⟨g, manifest, (update_of_ne heq _ _).symm.trans hhistory, hname⟩

theorem ever_publish_of_ever (h : Published s) (hnext : Succeeds s next) :
    s.Ever name → (s.publish next).Ever name := by
  rintro ⟨g, manifest, hhistory, hname⟩
  exact ⟨g, manifest, history_publish h hnext hhistory, hname⟩

theorem referenced_of_next (hnext : Succeeds s next) (hever : s.Ever name)
    (hname : name ∈ next.names) : name ∈ s.referenced := by
  by_contra hnot
  exact (hnext.fresh name hname hnot).1 hever

theorem next_pos (hnext : Succeeds s next) : 0 < next.generation := by
  rw [hnext.generation, nextGeneration]
  split <;> omega

theorem pinned_publish (h : Sound s) (hnext : Succeeds s next) :
    (s.publish next).Pinned name → s.Pinned name := by
  rintro ⟨pin, hpin, manifest, hhistory, hname⟩
  refine ⟨pin, hpin, manifest, ?_, hname⟩
  by_cases hzero : pin.generation = 0
  · rw [hzero] at hhistory ⊢
    exact (update_of_ne (next_pos hnext).ne _ _).symm.trans hhistory
  · obtain ⟨-, manifest', -, hhistory', -⟩ := (h.covered pin hpin).lease hzero
    have hne := (generation_lt h.published hnext hhistory').ne
    exact (update_of_ne hne _ _).symm.trans hhistory

theorem live_publish (h : Sound s) (hnext : Succeeds s next) (hever : s.Ever name)
    (hlive : (s.publish next).Live name) : s.Live name := by
  obtain hname | hname := hlive
  · exact .inl (referenced_of_next hnext hever hname)
  · exact .inr (pinned_publish h hnext hname)

theorem publishable_publish (hnext : Succeeds s next) {job : CompactionJob}
    (hcaptured : s.history job.captured.generation = some job.captured)
    (hready : (s.publish next).Publishable job) : s.Publishable job := by
  obtain ⟨current, hcurrent, hleads⟩ := hready
  cases hcurrent
  exact hnext.leads _ _ hcaptured hleads

/-- Publishing keeps the invariant, and so does retiring names that the next manifest lacks. -/
theorem publish (h : Sound s) (hnext : Succeeds s next) {extra : List FileName}
    (hextra : ∀ name ∈ extra, s.Ever name ∧ name ∉ next.names) :
    Sound { s.publish next with retired := s.retired ++ extra } where
  published :=
    { generation := by
        intro g manifest hhistory
        by_cases heq : g = next.generation
        · subst heq
          cases (update_self _ _ _).symm.trans hhistory
          exact ⟨rfl, hnext.nodup, fun name hname => old_next h.published hnext (.inr hname),
            hnext.graph, hnext.segments_ne, fun hzero => absurd hzero (next_pos hnext).ne'⟩
        · exact h.published.generation g manifest
            ((update_of_ne heq _ _).symm.trans hhistory)
      bound := by
        intro g manifest hhistory
        refine ⟨next, rfl, ?_⟩
        by_cases heq : g = next.generation
        · exact heq.le
        · exact (generation_lt h.published hnext
            ((update_of_ne heq _ _).symm.trans hhistory)).le
      current := by
        intro current hcurrent
        cases hcurrent
        exact update_self _ _ _
      old := by
        intro current name hcurrent hever
        cases hcurrent
        exact old_next h.published hnext (ever_publish hever)
      present := by
        intro name hname
        by_cases hreferenced : name ∈ s.referenced
        · exact h.published.present name hreferenced
        · exact .inl (hnext.fresh name hname hreferenced).2.2 }
  retired := by
    intro name hname
    rw [mem_append] at hname
    obtain hname | hname := hname
    · have hretired := h.retired name hname
      exact ⟨ever_publish_of_ever h.published hnext hretired.1, fun hmem =>
        hretired.2 (referenced_of_next hnext hretired.1 hmem)⟩
    · exact ⟨ever_publish_of_ever h.published hnext (hextra name hname).1, (hextra name hname).2⟩
  released := by
    intro task htask file hfile
    have hreleased := h.released task htask file hfile
    refine ⟨ever_publish_of_ever h.published hnext hreleased.ever, fun names hnames hnot hmem => ?_,
      fun hlive => hreleased.same (live_publish h hnext hreleased.ever hlive)⟩
    exact hreleased.unreferenced names hnames hnot (referenced_of_next hnext hreleased.ever hmem)
  covered := by
    intro pin hpin
    have hcovered := h.covered pin hpin
    refine ⟨fun hzero => ⟨(hcovered.zero hzero).1, ?_⟩, fun hne => ?_⟩
    · exact (update_of_ne (next_pos hnext).ne _ _).trans (hcovered.zero hzero).2
    · obtain ⟨lease, manifest, hlease, hhistory, hfiles⟩ := hcovered.lease hne
      exact ⟨lease, manifest, hlease, history_publish h.published hnext hhistory, hfiles⟩
  jobs := by
    intro id job hjob
    have hsound := h.jobs id job hjob
    refine ⟨history_publish h.published hnext hsound.captured, hsound.target,
      fun name hname hlive => ?_, fun hready name hname => ?_⟩
    · refine hsound.dead name hname (.inr ?_)
      exact pinned_publish h hnext (hlive.resolve_left (hnext.jobs id job hjob name hname))
    · have hold := hsound.ready (publishable_publish hnext hsound.captured hready) name hname
      exact ⟨fun hever => (ever_publish hever).elim hold.1 (hnext.jobs id job hjob name hname),
        hold.2⟩
  apart := fun id job id' job' hjob hjob' hne hready =>
    h.apart id job id' job' hjob hjob' hne
      (publishable_publish hnext (h.jobs id job hjob).captured hready)
  superseded := by
    intro name g hever htarget manifest hhistory current hcurrent hleads
    cases hcurrent
    have hle := target_le (old_next h.published hnext (ever_publish hever)) htarget
    have hne : g ≠ next.generation := by omega
    have hhistory' : s.history g = some manifest :=
      (update_of_ne hne _ _).symm.trans hhistory
    by_cases hever' : s.Ever name
    · obtain ⟨current, hcurrent, hleads'⟩ := hnext.leads g manifest hhistory' hleads
      exact h.superseded name g hever' htarget manifest hhistory' current hcurrent hleads'
    · have hname := (ever_publish hever).resolve_left hever'
      exact hnext.target name hname (fun hmem => hever' (ever_of_referenced h.published hmem)) g
        htarget manifest hhistory' hleads

end

/-! ## Checkpoints -/

theorem is_graph_of_validate {u : Unit} (h : validateHnswName manifest name = .ok u) :
    name.isGraph := by
  unfold validateHnswName at h
  split at h <;> first | rfl | cases h

/-- The parts of a checkpoint's manifest. -/
theorem checkpoint_manifest_ok {plan : CheckpointPlan} {previous : Option Manifest}
    {next : Manifest} (h : plan.manifest previous generation = .ok next) :
    next.generation = generation ∧
      next.segments = plan.kept previous ++ (plan.body.segment previous generation).toList ∧
      next.hnsw = plan.sidecar previous ∧
      next.lastSequence = ((plan.body.segment previous generation).map (·.maxSequence)).getD
        ((previous.map Manifest.lastSequence).getD 0) ∧
      next.segments ≠ [] ∧
      ∀ reference, next.hnsw = some reference → reference.name.isGraph ∧
        ∀ segment ∈ next.segments, reference.name ∉ segment.names := by
  unfold CheckpointPlan.manifest at h
  cases hsidecar : plan.sidecar previous with
  | none =>
      simp only [hsidecar, with_segments_ok] at h
      obtain ⟨-, -, hvalid, rfl⟩ := h
      exact ⟨rfl, rfl, rfl, rfl, hvalid.count.1, nofun⟩
  | some reference =>
      simp only [hsidecar, with_hnsw_ok] at h
      obtain ⟨-, -, -, hvalid, hreference, rfl⟩ := h
      refine ⟨rfl, rfl, rfl, rfl, hvalid.count.1, fun reference' heq => ?_⟩
      cases heq
      simp only [validateHnswReference, bind_ok, exists_unit, require_ok] at hreference
      exact ⟨is_graph_of_validate hreference.1, hreference.2⟩

theorem checkpoint_segment_names {body : CheckpointBody} {previous : Option Manifest}
    {segment : SegmentDescriptor} (h : body.segment previous generation = some segment) :
    segment.names.Nodup ∧ ∀ next : Manifest, next.generation = generation →
      next.lastSequence = segment.maxSequence → ∀ name ∈ segment.names, name.Old next := by
  unfold CheckpointBody.segment at h
  split at h
  case h_3 | h_6 =>
    split at h <;> cases h
    simp +contextual [SegmentDescriptor.names, FileName.Old]
  all_goals
    cases h
    try simp +contextual [SegmentDescriptor.names, FileName.Old]

section

variable {plan : CheckpointPlan} {next : Manifest}

theorem mem_names :
    name ∈ manifest.names ↔ name ∈ compactionInputPaths manifest ∨
      ∃ reference, manifest.hnsw = some reference ∧ name = reference.name := by
  simp only [Manifest.names, compactionInputPaths, mem_append, Option.mem_toList,
    Option.map_eq_some_iff, eq_comm (a := name)]

theorem kept_cases (plan : CheckpointPlan) (previous : Option Manifest) :
    plan.kept previous = [] ∨
      ∃ current, previous = some current ∧ plan.kept previous = current.segments := by
  unfold CheckpointPlan.kept
  split
  · exact .inl rfl
  · cases previous with
    | none => exact .inl rfl
    | some current => exact .inr ⟨current, rfl, rfl⟩

/-- Where the names of a checkpoint's manifest come from. -/
theorem checkpoint_name_cases (hnext : plan.manifest s.manifest s.nextGeneration = .ok next)
    (hname : name ∈ next.names) :
    name ∈ s.referenced ∨ name ∈ plan.created s.manifest s.nextGeneration := by
  obtain ⟨-, hsegments, hhnsw, -⟩ := checkpoint_manifest_ok hnext
  rw [mem_names, compactionInputPaths, hsegments, hhnsw, flatMap_append,
    mem_append] at hname
  rcases hname with (hkept | hadded) | ⟨reference, hreference, rfl⟩
  · refine .inl ?_
    obtain hnil | ⟨current, hcurrent, heq⟩ := kept_cases plan s.manifest
    · simp [hnil] at hkept
    · rw [heq] at hkept
      simp [referenced, hcurrent, Manifest.names, hkept]
  · exact .inr (mem_append_left _ hadded)
  · unfold CheckpointPlan.sidecar at hreference
    split at hreference
    · refine .inl ?_
      obtain ⟨current, hcurrent, hsome⟩ := Option.bind_eq_some_iff.1 hreference
      simp [referenced, hcurrent, Manifest.names, hsome]
    · cases hreference
    · next fresh heq =>
        cases hreference
        refine .inr (mem_append_right _ ?_)
        simp [heq]

/-- The names of a checkpoint's manifest are different: what it keeps has been published, what
it adds has not. -/
theorem checkpoint_nodup (h : Published s)
    (hnext : plan.manifest s.manifest s.nextGeneration = .ok next)
    (hcreated : ∀ name ∈ plan.created s.manifest s.nextGeneration, s.follows name) :
    next.names.Nodup := by
  obtain ⟨-, hsegments, -, -, -, hgraph⟩ := checkpoint_manifest_ok hnext
  rw [Manifest.names, nodup_append]
  refine ⟨?_, ?_, ?_⟩
  · rw [hsegments, flatMap_append, nodup_append]
    refine ⟨?_, ?_, ?_⟩
    · obtain hnil | ⟨current, hcurrent, heq⟩ := kept_cases plan s.manifest
      · simp [hnil]
      · rw [heq]
        have hwell := (h.generation _ _ (h.current current hcurrent)).2
        exact (nodup_append.1 hwell.nodup).1
    · cases hadded : plan.body.segment s.manifest s.nextGeneration with
      | none => simp
      | some segment => simpa using (checkpoint_segment_names hadded).1
    · intro name hkept other hadded heq
      subst heq
      refine not_ever_of_follows h (hcreated name (mem_append_left _ hadded)) ?_
      obtain hnil | ⟨current, hcurrent, heq⟩ := kept_cases plan s.manifest
      · simp [hnil] at hkept
      · rw [heq] at hkept
        exact ⟨_, current, h.current current hcurrent, mem_append_left _ hkept⟩
  · cases next.hnsw <;> simp
  · intro name hname other hother heq
    subst heq
    simp only [Option.mem_toList, Option.map_eq_some_iff] at hother
    obtain ⟨reference, hreference, rfl⟩ := hother
    obtain ⟨segment, hsegment, hin⟩ := mem_flatMap.1 hname
    exact (hgraph reference hreference).2 segment hsegment hin

/-- What a checkpoint has written is old once it is published. -/
theorem checkpoint_created_old (hnext : plan.manifest s.manifest s.nextGeneration = .ok next)
    (hname : name ∈ plan.created s.manifest s.nextGeneration) (hfollows : s.follows name) :
    name.Old next := by
  obtain ⟨hgeneration, -, hhnsw, hlast, -, hgraph⟩ := checkpoint_manifest_ok hnext
  rw [CheckpointPlan.created, mem_append] at hname
  obtain hname | hname := hname
  · cases hadded : plan.body.segment s.manifest s.nextGeneration with
    | none => simp [hadded] at hname
    | some segment =>
        rw [hadded] at hname hlast
        exact (checkpoint_segment_names hadded).2 next hgeneration hlast name (by simpa using hname)
  · split at hname
    · next reference hfresh =>
        rw [mem_singleton] at hname
        subst hname
        have hsome : next.hnsw = some reference := by rw [hhnsw, CheckpointPlan.sidecar, hfresh]
        have hkind := (hgraph reference hsome).1
        cases hshape : reference.name <;> simp_all [FileName.isGraph, follows,
          FileName.Old]
    · cases hname

/-- A manifest that leads the one of a checkpoint led the published one: what the checkpoint
adds no manifest has had. -/
theorem checkpoint_leads (h : Published s)
    (hnext : plan.manifest s.manifest s.nextGeneration = .ok next)
    (hcreated : ∀ name ∈ plan.created s.manifest s.nextGeneration, s.follows name) {g : Nat}
    (hhistory : s.history g = some manifest) (hleads : manifest.segments <+: next.segments) :
    ∃ current, s.manifest = some current ∧ manifest.segments <+: current.segments := by
  obtain ⟨-, hsegments, -⟩ := checkpoint_manifest_ok hnext
  have hkept : manifest.segments <+: plan.kept s.manifest := by
    rw [hsegments] at hleads
    cases hadded : plan.body.segment s.manifest s.nextGeneration with
    | none => simpa [hadded] using hleads
    | some segment =>
        rw [hadded, Option.toList_some, prefix_concat_iff] at hleads
        refine hleads.resolve_left fun heq => ?_
        have hname : segment.name ∈ plan.created s.manifest s.nextGeneration := by
          simp [CheckpointPlan.created, hadded, SegmentDescriptor.names]
        refine not_ever_of_follows h (hcreated _ hname) ⟨g, manifest, hhistory, ?_⟩
        simp [Manifest.names, heq, SegmentDescriptor.names]
  obtain hnil | ⟨current, hcurrent, heq⟩ := kept_cases plan s.manifest
  · rw [hnil, prefix_nil] at hkept
    exact absurd hkept (h.generation g manifest hhistory).2.segments_ne
  · exact ⟨current, hcurrent, heq ▸ hkept⟩

/-- The manifest of a checkpoint may be published. -/
theorem checkpoint_succeeds (h : Sound s)
    (hnext : plan.manifest s.manifest s.nextGeneration = .ok next)
    (hlast : ∀ previous ∈ s.manifest, previous.lastSequence ≤ next.lastSequence)
    (hcreated : ∀ name ∈ plan.created s.manifest s.nextGeneration,
      s.follows name ∧ (s.directory name).isSome) : Succeeds s next := by
  have hfollows := fun name hname => (hcreated name hname).1
  obtain ⟨hgeneration, -, -, -, hne, hgraph⟩ := checkpoint_manifest_ok hnext
  have hnew : ∀ name ∈ next.names, name ∉ s.referenced →
      name ∈ plan.created s.manifest s.nextGeneration :=
    fun name hname hnot => (checkpoint_name_cases hnext hname).resolve_left hnot
  exact
    { generation := hgeneration
      lastSequence := hlast
      nodup := checkpoint_nodup h.published hnext hfollows
      graph := fun reference hreference => (hgraph reference hreference).1
      segments_ne := hne
      fresh := fun name hname hnot =>
        have hin := hnew name hname hnot
        ⟨not_ever_of_follows h.published (hfollows name hin),
          checkpoint_created_old hnext hin (hfollows name hin), (hcreated name hin).2⟩
      leads := fun _ _ => checkpoint_leads h.published hnext hfollows
      jobs := by
        intro id job hjob name hname hmem
        have hsound := h.jobs id job hjob
        by_cases hreferenced : name ∈ s.referenced
        · exact hsound.dead name hname (.inl hreferenced)
        · have htarget := target_of_follows (hfollows name (hnew name hmem hreferenced))
          rw [hsound.target name hname] at htarget
          cases htarget
      target := by
        intro name hname hnot g htarget
        rw [target_of_follows (hfollows name (hnew name hname hnot))] at htarget
        cases htarget }

/-- Of the names that were published a checkpoint keeps those of the segments it keeps and
that of the sidecar. -/
theorem checkpoint_keeps (h : Published s)
    (hnext : plan.manifest s.manifest s.nextGeneration = .ok next)
    (hcreated : ∀ name ∈ plan.created s.manifest s.nextGeneration, s.follows name)
    (hever : s.Ever name) (hname : name ∈ next.names) :
    name ∈ (plan.kept s.manifest).flatMap SegmentDescriptor.names ∨
      ∃ current reference, s.manifest = some current ∧ current.hnsw = some reference ∧
        plan.sidecar s.manifest = some reference ∧ name = reference.name := by
  have hold : name ∉ plan.created s.manifest s.nextGeneration :=
    fun hmem => not_ever_of_follows h (hcreated name hmem) hever
  obtain ⟨-, hsegments, hhnsw, -⟩ := checkpoint_manifest_ok hnext
  rw [mem_names, compactionInputPaths, hsegments, hhnsw, flatMap_append,
    mem_append] at hname
  rcases hname with (hkept | hadded) | ⟨reference, hreference, rfl⟩
  · exact .inl hkept
  · exact absurd (mem_append_left _ hadded) hold
  · unfold CheckpointPlan.sidecar at hreference ⊢
    split at hreference
    · next hretain =>
        obtain ⟨current, hcurrent, hsome⟩ := Option.bind_eq_some_iff.1 hreference
        exact .inr ⟨current, reference, hcurrent, hsome, hreference, rfl⟩
    · cases hreference
    · next fresh hfresh =>
        cases hreference
        refine absurd (mem_append_right _ ?_) hold
        simp [hfresh]

/-- What a checkpoint retires has been published and is not in its manifest. -/
theorem checkpoint_replaced (h : Published s)
    (hnext : plan.manifest s.manifest s.nextGeneration = .ok next)
    (hcreated : ∀ name ∈ plan.created s.manifest s.nextGeneration, s.follows name) :
    ∀ name ∈ plan.replaced s.manifest, s.Ever name ∧ name ∉ next.names := by
  intro name hname
  cases hcurrent : s.manifest with
  | none => simp [CheckpointPlan.replaced, hcurrent] at hname
  | some current =>
      have hhistory := h.current current hcurrent
      have hapart := (nodup_append.1 (h.generation _ _ hhistory).2.nodup).2.2
      simp only [CheckpointPlan.replaced, hcurrent, mem_append, mem_filter,
        Option.mem_toList, Option.map_eq_some_iff, decide_eq_true_eq] at hname
      obtain hname | ⟨⟨reference, hreference, rfl⟩, hne⟩ := hname
      · -- a segment: the checkpoint wrote a complete base
        unfold CheckpointPlan.replacedSegments at hname
        split at hname
        · next hbody =>
            have hever : s.Ever name := ⟨_, current, hhistory, mem_names.2 (.inl hname)⟩
            refine ⟨hever, fun hmem => ?_⟩
            obtain hkept | ⟨current', reference, hcurrent', hreference, -, rfl⟩ :=
              checkpoint_keeps h hnext hcreated hever hmem
            · simp [CheckpointPlan.kept, hbody] at hkept
            · cases hcurrent.symm.trans hcurrent'
              exact hapart _ hname reference.name (by simp [hreference]) rfl
        · cases hname
      · -- the sidecar: the checkpoint has another one, or none
        have hever : s.Ever reference.name :=
          ⟨_, current, hhistory, mem_names.2 (.inr ⟨reference, hreference, rfl⟩)⟩
        refine ⟨hever, fun hmem => ?_⟩
        obtain hkept | ⟨current', reference', -, -, hsidecar, heq⟩ :=
          checkpoint_keeps h hnext hcreated hever hmem
        · obtain hnil | ⟨current', hcurrent', hsame⟩ := kept_cases plan s.manifest
          · simp [hnil] at hkept
          · cases hcurrent.symm.trans hcurrent'
            rw [hsame] at hkept
            exact hapart _ hkept reference.name (by simp [hreference]) rfl
        · rw [hcurrent] at hsidecar
          exact hne (by simp [hsidecar, heq])

theorem checkpoint (h : Sound s) {retires : Bool} (hstep : s.checkpoint plan retires = some s') :
    Advances s s' := by
  simp only [FileState.checkpoint, Option.bind_eq_bind, Option.bind_eq_some_iff, guard_some,
    exists_unit, Option.some.injEq, to_option_some] at hstep
  obtain ⟨next, hnext, hlast, hcreated, rfl⟩ := hstep
  have hsucceeds := h.checkpoint_succeeds hnext hlast hcreated
  refine ⟨h.publish hsucceeds fun name hname => ?_, fun _ _ => rfl⟩
  cases retires with
  | false => simp at hname
  | true =>
      have hfollows := fun name hname => (hcreated name hname).1
      exact checkpoint_replaced h.published hnext hfollows name hname

end

/-! ## Compactions -/

theorem of_jobs (h : Sound s) {jobs : Std.ExtTreeMap Nat CompactionJob}
    (hjobs : ∀ (id : Nat) job, jobs[id]? = some job → JobSound s job)
    (hapart : ∀ (id : Nat) job (id' : Nat) (job' : CompactionJob), jobs[id]? = some job →
      jobs[id']? = some job' → id ≠ id' → s.Publishable job → ∀ name ∈ job.outputs, name ∉ job'.outputs) :
    Sound { s with jobs } where
  published := ⟨h.published.generation, h.published.bound, h.published.current, h.published.old,
    h.published.present⟩
  retired := h.retired
  released := fun task htask file hfile =>
    have hreleased := h.released task htask file hfile
    ⟨hreleased.ever, hreleased.unreferenced, hreleased.same⟩
  covered := fun pin hpin => ⟨(h.covered pin hpin).zero, (h.covered pin hpin).lease⟩
  jobs := fun id job hjob =>
    have hsound := hjobs id job hjob
    ⟨hsound.captured, hsound.target, hsound.dead, hsound.ready⟩
  apart := hapart
  superseded := h.superseded

theorem job_of_erase {id id' : Nat} {job : CompactionJob}
    (hjob : (s.jobs.erase id)[id']? = some job) : id' ≠ id ∧ s.jobs[id']? = some job := by
  rw [Std.ExtTreeMap.getElem?_erase] at hjob
  split at hjob
  · cases hjob
  · next hne =>
      refine ⟨fun heq => hne ?_, hjob⟩
      rw [heq]
      exact Std.ReflCmp.compare_self

theorem job_of_insert {id id' : Nat} {job job' : CompactionJob}
    (hjob : (s.jobs.insert id job)[id']? = some job') :
    (id' = id ∧ job' = job) ∨ (id' ≠ id ∧ s.jobs[id']? = some job') := by
  rw [Std.ExtTreeMap.getElem?_insert] at hjob
  split at hjob
  · next heq =>
      cases hjob
      exact .inl ⟨(Std.LawfulEqCmp.eq_of_compare heq).symm, rfl⟩
  · next hne =>
      refine .inr ⟨fun heq => hne ?_, hjob⟩
      rw [heq]
      exact Std.ReflCmp.compare_self

theorem endJob (h : Sound s) (id : Nat) : Sound (s.endJob id) :=
  h.of_jobs (fun _ _ hjob => h.jobs _ _ (job_of_erase hjob).2)
    fun _ _ _ _ hjob hjob' => h.apart _ _ _ _ (job_of_erase hjob).2 (job_of_erase hjob').2

theorem setJob (h : Sound s) {id : Nat} {job : CompactionJob} (hsound : JobSound s job)
    (hapart : ∀ (id' : Nat) (job' : CompactionJob), s.jobs[id']? = some job' → id' ≠ id →
      s.Publishable job ∨ s.Publishable job' → ∀ name ∈ job.outputs, name ∉ job'.outputs) :
    Sound (s.setJob id job) := by
  refine h.of_jobs (fun id' job' hjob' => ?_) fun id₁ job₁ id₂ job₂ hjob₁ hjob₂ hne hready => ?_
  · obtain ⟨-, rfl⟩ | ⟨-, hjob'⟩ := job_of_insert hjob'
    · exact hsound
    · exact h.jobs id' job' hjob'
  · obtain ⟨rfl, rfl⟩ | ⟨hne₁, hold₁⟩ := job_of_insert hjob₁
    · obtain ⟨rfl, -⟩ | ⟨hne₂, hold₂⟩ := job_of_insert hjob₂
      · exact absurd rfl hne
      · exact hapart id₂ job₂ hold₂ hne₂ (.inl hready)
    · obtain ⟨rfl, rfl⟩ | ⟨hne₂, hold₂⟩ := job_of_insert hjob₂
      · intro name hname hmem
        exact hapart id₁ job₁ hold₁ hne₁ (.inr hready) name hmem hname
      · exact h.apart id₁ job₁ id₂ job₂ hold₁ hold₂ hne hready

theorem pin_frame (hpin : s.pin generation = some s') :
    s'.directory = s.directory ∧ s'.history = s.history := by
  unfold FileState.pin at hpin
  split at hpin
  · cases hpin
    exact ⟨rfl, rfl⟩
  · split at hpin
    · cases hpin
      exact ⟨rfl, rfl⟩
    · simp only [Option.bind_eq_bind, Option.bind_eq_some_iff, guard_some, exists_unit,
        Option.some.injEq] at hpin
      obtain ⟨manifest, -, -, lease, -, rfl⟩ := hpin
      exact ⟨rfl, rfl⟩

theorem beginCompaction (h : Sound s) {id : Nat} (hstep : s.beginCompaction id = some s') :
    Advances s s' := by
  simp only [FileState.beginCompaction, Option.bind_eq_bind, Option.bind_eq_some_iff, guard_some,
    exists_unit, Option.some.injEq] at hstep
  obtain ⟨-, manifest, hmanifest, ⟨htwo, -⟩, pinned, hpin, rfl⟩ := hstep
  have hhistory := h.published.current manifest hmanifest
  have hpositive : manifest.generation ≠ 0 := by
    intro hzero
    have := (h.published.generation _ _ hhistory).2.single hzero
    omega
  have hpinned := h.pin (fun hzero => absurd hzero hpositive) hpin
  obtain ⟨hdirectory, hsame⟩ := pin_frame hpin
  refine ⟨hpinned.setJob ⟨by rw [hsame]; exact hhistory, ?_, ?_, ?_⟩ ?_,
    fun name _ => congrFun hdirectory name⟩
  all_goals simp [CompactionJob.outputs]

theorem not_live_of_free (h : Sound s) (hfree : s.directory name = none)
    (hgraph : name.isGraph = false) : ¬ s.Live name := by
  rintro (hname | ⟨pin, hpin, manifest, hhistory, hname⟩)
  · have hpresent := h.published.present name hname
    simp [hfree, hgraph] at hpresent
  · have hcovered := h.covered pin hpin
    by_cases hzero : pin.generation = 0
    · rw [hzero, (hcovered.zero hzero).2] at hhistory
      cases hhistory
    · obtain ⟨lease, manifest', -, hhistory', hfiles, hall⟩ := hcovered.lease hzero
      cases hhistory.symm.trans hhistory'
      obtain ⟨file, hfile⟩ | ⟨-, hkind⟩ := hall name hname
      · have hsome := (hfiles _ hfile).1
        rw [show s.directory name = none from hfree] at hsome
        cases hsome
      · rw [hgraph] at hkind
        cases hkind

/-- One more output for a job, at a name that was free. -/
theorem claim (h : Sound s) {id : Nat} {job job' : CompactionJob} (hjob : s.jobs[id]? = some job)
    (hfree : s.directory name = none) (hgraph : name.isGraph = false)
    (htarget : name.target = some (job.captured.generation + 1))
    (hcaptured : job'.captured = job.captured)
    (houtputs : ∀ other ∈ job'.outputs, other = name ∨ other ∈ job.outputs) :
    Advances s ((s.create name).setJob id job') := by
  have hsound := h.jobs id job hjob
  have hdead := h.not_live_of_free hfree hgraph
  have hready : s.Publishable job → ¬ s.Ever name := by
    rintro ⟨current, hcurrent, hleads⟩ hever
    exact h.superseded name _ hever htarget _ hsound.captured current hcurrent hleads
  have hcreated := h.create hdead
  refine ⟨hcreated.sound.setJob ⟨?_, ?_, ?_, ?_⟩ ?_, hcreated.keeps⟩
  · rw [hcaptured]
    exact hsound.captured
  · intro other hother
    rw [hcaptured]
    obtain rfl | hother := houtputs other hother
    · exact htarget
    · exact hsound.target other hother
  · intro other hother
    obtain rfl | hother := houtputs other hother
    · exact hdead
    · exact hsound.dead other hother
  · rintro ⟨current, hcurrent, hleads⟩ other hother
    have hready' : s.Publishable job := ⟨current, hcurrent, hcaptured ▸ hleads⟩
    show ¬ s.Ever other ∧ (update s.directory name _ other).isSome
    by_cases heq : other = name
    · subst heq
      exact ⟨hready hready', by simp⟩
    · rw [update_of_ne heq]
      exact hsound.ready hready' other ((houtputs other hother).resolve_left heq)
  · intro id' job'' hjob'' hne heither other hother hmem
    have hsound'' := h.jobs id' job'' hjob''
    have hready' : s.Publishable job ∨ s.Publishable job'' := by
      obtain ⟨current, hcurrent, hleads⟩ | hpublishable := heither
      · exact .inl ⟨current, hcurrent, hcaptured ▸ hleads⟩
      · exact .inr hpublishable
    obtain rfl | hother := houtputs other hother
    · -- the free name is an output of the other job, which can be published as well as this one
      have hsame : s.Publishable job'' := by
        refine hready'.elim (fun hpublishable => ?_) fun hpublishable => hpublishable
        have hgeneration : job.captured.generation = job''.captured.generation := by
          simpa using htarget.symm.trans (hsound''.target other hmem)
        have heq : job.captured = job''.captured :=
          Option.some.inj (hsound.captured.symm.trans (hgeneration ▸ hsound''.captured))
        obtain ⟨current, hcurrent, hleads⟩ := hpublishable
        exact ⟨current, hcurrent, heq ▸ hleads⟩
      have hsome := (hsound''.ready hsame other hmem).2
      rw [hfree] at hsome
      cases hsome
    · obtain hpublishable | hpublishable := hready'
      · exact h.apart id job id' job'' hjob hjob'' hne.symm hpublishable other hother hmem
      · exact h.apart id' job'' id job hjob'' hjob hne hpublishable other hmem hother

theorem claimOutput (h : Sound s) {id number : Nat} {sparse : Bool}
    (hstep : s.claimOutput id sparse number = some s') : Advances s s' := by
  simp only [FileState.claimOutput, Option.bind_eq_bind, Option.bind_eq_some_iff, guard_some,
    exists_unit, Option.some.injEq] at hstep
  obtain ⟨job, hjob, -, ⟨hfree, hnone⟩, rfl⟩ := hstep
  refine h.claim hjob hfree ?_ ?_ ?_ ?_
  · cases sparse <;> rfl
  · cases sparse <;> rfl
  · cases sparse <;> rfl
  · cases sparse with
    | false =>
        intro other hother
        rw [CompactionJob.outputs, mem_append] at hother
        refine hother.symm.imp ?_ fun hsparse => mem_append_left _ hsparse
        simp
    | true =>
        intro other hother
        rw [CompactionJob.outputs, mem_append] at hother
        refine hother.imp ?_ fun hsegment => mem_append_right _ hsegment
        simp

/-- What is kept of a job are the manifest it captured and its outputs. -/
theorem setJob_same (h : Sound s) {id : Nat} {job job' : CompactionJob}
    (hjob : s.jobs[id]? = some job) (hcaptured : job'.captured = job.captured)
    (houtputs : job'.outputs = job.outputs) : Sound (s.setJob id job') := by
  have hsound := h.jobs id job hjob
  have hready : s.Publishable job' → s.Publishable job := by
    rintro ⟨current, hcurrent, hleads⟩
    exact ⟨current, hcurrent, hcaptured ▸ hleads⟩
  refine h.setJob ⟨hcaptured ▸ hsound.captured, ?_, ?_, ?_⟩ fun id' other hother hne heither => ?_
  · rw [houtputs, hcaptured]
    exact hsound.target
  · rw [houtputs]
    exact hsound.dead
  · rw [houtputs]
    exact fun hpublishable => hsound.ready (hready hpublishable)
  · rw [houtputs]
    obtain hpublishable | hpublishable := heither
    · exact h.apart id job id' other hjob hother hne.symm (hready hpublishable)
    · intro name hname hmem
      exact h.apart id' other id job hother hjob hne hpublishable name hmem hname

theorem releaseInputs (h : Sound s) {id : Nat} (hstep : s.releaseInputs id = some s') :
    Advances s s' := by
  simp only [FileState.releaseInputs, Option.bind_eq_bind, Option.bind_eq_some_iff, guard_some,
    exists_unit, Option.some.injEq] at hstep
  obtain ⟨job, hjob, -, rfl⟩ := hstep
  have hunpinned := h.unpin s.owner job.captured.generation
  exact ⟨hunpinned.setJob_same hjob rfl rfl, fun _ _ => rfl⟩

theorem removeFiles_endJob (s : FileState) (names : List FileName) (id : Nat) :
    (s.removeFiles names).endJob id = (s.endJob id).removeFiles names := by
  induction names generalizing s with
  | nil => rfl
  | cons name names ih => exact ih (s.unlink name)

theorem removeFiles (h : Sound s) {names : List FileName}
    (hnames : ∀ name ∈ names, ¬ s.Live name ∧ ∀ (id : Nat) job, s.jobs[id]? = some job →
      s.Publishable job → name ∉ job.outputs) : Advances s (s.removeFiles names) := by
  induction names generalizing s with
  | nil => exact ⟨h, fun _ _ => rfl⟩
  | cons name names ih =>
      rw [forall_mem_cons] at hnames
      have hfirst := h.unlink hnames.1.1 hnames.1.2
      have hrest := ih hfirst.sound hnames.2
      exact ⟨hrest.sound, fun other hother =>
        (hrest.keeps other hother).trans (hfirst.keeps other hother)⟩

theorem discard (h : Sound s) {id : Nat} {removed : List FileName}
    (hstep : s.discard id removed = some s') : Advances s s' := by
  simp only [FileState.discard, Option.bind_eq_bind, Option.bind_eq_some_iff, guard_some,
    exists_unit, Option.some.injEq] at hstep
  obtain ⟨job, hjob, hremoved, rfl⟩ := hstep
  have hgone : Advances (s.endJob id) ((s.removeFiles removed).endJob id) := by
    rw [removeFiles_endJob]
    refine (h.endJob id).removeFiles fun name hname => ⟨?_, fun id' job' hjob' hready hmem => ?_⟩
    · exact (h.jobs id job hjob).dead name (hremoved name hname)
    · obtain ⟨hne, hjob'⟩ := job_of_erase hjob'
      exact h.apart id' job' id job hjob' hjob hne hready name hmem (hremoved name hname)
  split
  · exact ⟨hgone.sound.unpin s.owner job.captured.generation, hgone.keeps⟩
  · exact ⟨hgone.sound, hgone.keeps⟩

/-! ### Publishing the output -/

section

variable {id : Nat} {job : CompactionJob} {current next : Manifest} {output : CompactionOutput}

/-- A job whose output has become a manifest, and that manifest's segments. -/
structure Rebased (s : FileState) (id : Nat) (job : CompactionJob) (current next : Manifest)
    (output : CompactionOutput) (tail : List SegmentDescriptor) : Prop where
  job_eq : s.jobs[id]? = some job
  manifest_eq : s.manifest = some current
  outputs : ∀ name ∈ (output.descriptor job.captured).names, name ∈ job.outputs
  captured : current.segments = job.captured.segments ++ tail
  generation : next.generation = current.generation + 1
  lastSequence : next.lastSequence = current.lastSequence
  segments : next.segments = output.descriptor job.captured :: tail
  hnsw : next.hnsw = current.hnsw
  valid : SegmentsValid current.lastSequence (output.descriptor job.captured :: tail)

variable {tail : List SegmentDescriptor}

theorem rebased_of_rebase (hjob : s.jobs[id]? = some job) (hcurrent : s.manifest = some current)
    (hsegment : job.segmentName = some output.segmentName)
    (hsparse : job.sparseName = output.sparseName)
    (hrebase : rebase current job.captured output = .ok (some next)) :
    ∃ tail, Rebased s id job current next output tail := by
  obtain ⟨tail, htail, -, hsucceed⟩ := rebase_some hrebase
  obtain ⟨-, hgeneration, hlast, hsegments, hhnsw, hvalid⟩ := succeed_ok hsucceed
  refine ⟨tail, hjob, hcurrent, ?_, htail, hgeneration, hlast, hsegments, hhnsw, hvalid⟩
  intro name hname
  rw [SegmentDescriptor.names, mem_cons] at hname
  rw [CompactionJob.outputs, hsegment, hsparse, mem_append]
  refine hname.symm.imp_right fun heq => ?_
  rw [heq]
  exact Option.mem_toList.2 rfl

/-- The names a compaction's manifest has of the current one. -/
def keptNames (current : Manifest) (tail : List SegmentDescriptor) : List FileName :=
  tail.flatMap SegmentDescriptor.names ++ (current.hnsw.map (·.name)).toList

theorem rebased_names (hr : Rebased s id job current next output tail) :
    next.names = (output.descriptor job.captured).names ++ keptNames current tail := by
  rw [Manifest.names, hr.segments, hr.hnsw, flatMap_cons, append_assoc]
  rfl

theorem captured_names (hr : Rebased s id job current next output tail) :
    current.names = compactionInputPaths job.captured ++ keptNames current tail := by
  rw [Manifest.names, hr.captured, flatMap_append, append_assoc]
  rfl

theorem kept_referenced (hr : Rebased s id job current next output tail)
    (hname : name ∈ keptNames current tail) : name ∈ s.referenced := by
  rw [referenced, hr.manifest_eq, Option.map_some, Option.getD_some, captured_names hr]
  exact mem_append_right _ hname

theorem rebased_new (h : Sound s) (hr : Rebased s id job current next output tail)
    (hname : name ∈ (output.descriptor job.captured).names) :
    ¬ s.Ever name ∧ (s.directory name).isSome :=
  (h.jobs id job hr.job_eq).ready ⟨current, hr.manifest_eq, tail, hr.captured.symm⟩ name
    (hr.outputs name hname)

theorem rebased_leads (h : Sound s) (hr : Rebased s id job current next output tail) {g : Nat}
    (hhistory : s.history g = some manifest) :
    ¬ manifest.segments <+: next.segments := by
  intro hleads
  have hne := (h.published.generation g manifest hhistory).2.segments_ne
  obtain ⟨first, rest, hfirst⟩ := exists_cons_of_ne_nil hne
  rw [hr.segments, hfirst, cons_prefix_cons] at hleads
  refine (rebased_new h hr (mem_cons_self ..)).1 ⟨g, manifest, hhistory, ?_⟩
  simp [Manifest.names, hfirst, hleads.1, SegmentDescriptor.names]

theorem old_of_target (htarget : name.target = some generation)
    (hle : generation ≤ manifest.generation) :
    name.Old manifest := by
  cases name <;> simp_all [FileName.Old, FileName.target]

/-- The manifest of a compaction may be published. -/
theorem rebased_succeeds (h : Sound s) (hr : Rebased s id job current next output tail) :
    Succeeds (s.endJob id) next := by
  have hhistory := h.published.current current hr.manifest_eq
  have hwell := (h.published.generation _ _ hhistory).2
  have hnew : ∀ name ∈ next.names, name ∉ s.referenced →
      name ∈ (output.descriptor job.captured).names := by
    intro name hname hnot
    rw [rebased_names hr, mem_append] at hname
    exact hname.resolve_right fun hkept => hnot (kept_referenced hr hkept)
  have hsound := h.jobs id job hr.job_eq
  exact
    { generation := by
        rw [hr.generation, nextGeneration, show (s.endJob id).manifest = some current
          from hr.manifest_eq]
      lastSequence := by
        intro previous hprevious
        cases hr.manifest_eq.symm.trans hprevious
        exact hr.lastSequence.ge
      nodup := by
        rw [rebased_names hr, nodup_append]
        refine ⟨?_, ?_, fun name hname other hother heq => ?_⟩
        · have hown := hr.valid.own_ne _ (mem_cons_self ..)
          rw [SegmentDescriptor.names, nodup_cons]
          refine ⟨by simpa using hown, ?_⟩
          cases (output.descriptor job.captured).sparseName <;> simp
        · have hnodup := hwell.nodup
          rw [captured_names hr] at hnodup
          exact (nodup_append.1 hnodup).2.1
        · subst heq
          exact (rebased_new h hr hname).1 (ever_of_referenced h.published
            (kept_referenced hr hother))
      graph := by
        rw [hr.hnsw]
        exact hwell.graph
      segments_ne := by simp [hr.segments]
      fresh := by
        intro name hname hnot
        have hin := hnew name hname hnot
        have hready := rebased_new h hr hin
        refine ⟨hready.1, old_of_target (hsound.target name (hr.outputs name hin)) ?_, hready.2⟩
        obtain ⟨current', hcurrent', hle⟩ := h.published.bound _ _ hsound.captured
        cases hr.manifest_eq.symm.trans hcurrent'
        rw [hr.generation]
        exact Nat.succ_le_succ hle
      leads := fun g manifest hhistory hleads => absurd hleads (rebased_leads h hr hhistory)
      jobs := by
        intro id' job' hjob' name hname hmem
        obtain ⟨hne, hjob'⟩ := job_of_erase hjob'
        by_cases hreferenced : name ∈ s.referenced
        · exact (h.jobs id' job' hjob').dead name hname (.inl hreferenced)
        · exact h.apart id job id' job' hr.job_eq hjob' hne.symm
            ⟨current, hr.manifest_eq, tail, hr.captured.symm⟩ name
            (hr.outputs name (hnew name hmem hreferenced)) hname
      target := fun _ _ _ _ _ _ hhistory => rebased_leads h hr hhistory }

theorem rebased_inputs (h : Sound s) (hr : Rebased s id job current next output tail) :
    ∀ name ∈ compactionInputPaths job.captured, s.Ever name ∧ name ∉ next.names := by
  intro name hname
  have hhistory := h.published.current current hr.manifest_eq
  have hever : s.Ever name := by
    refine ⟨_, current, hhistory, ?_⟩
    rw [captured_names hr]
    exact mem_append_left _ hname
  refine ⟨hever, fun hmem => ?_⟩
  rw [rebased_names hr, mem_append] at hmem
  obtain hmem | hmem := hmem
  · exact (rebased_new h hr hmem).1 hever
  · have hnodup := (h.published.generation _ _ hhistory).2.nodup
    rw [captured_names hr, nodup_append] at hnodup
    exact hnodup.2.2 name hname name hmem rfl

end

theorem finish (h : Sound s) {id : Nat} {checksum sparseChecksum : UInt32} {retires : Bool}
    (hstep : s.finish id checksum sparseChecksum retires = some s') :
    Advances s s' := by
  simp only [FileState.finish, Option.bind_eq_bind, Option.bind_eq_some_iff, guard_some,
    exists_unit, Option.some.injEq, Option.join_eq_some_iff, to_option_some] at hstep
  obtain ⟨job, hjob, -, segmentName, hsegment, current, hcurrent, next, hrebase, rfl⟩ := hstep
  obtain ⟨tail, hr⟩ := rebased_of_rebase hjob hcurrent hsegment rfl hrebase
  refine ⟨(h.endJob id).publish (rebased_succeeds h hr) fun name hname => ?_, fun _ _ => rfl⟩
  cases retires with
  | false => simp at hname
  | true => exact rebased_inputs h hr name hname

/-! ## Reclamation -/

theorem reclaimLeased (h : Sound s) {index : Nat} {granted : Bool}
    (hstep : s.reclaimLeased index granted = some s') : Advances s s' := by
  simp only [FileState.reclaimLeased, Option.bind_eq_bind, Option.bind_eq_some_iff] at hstep
  obtain ⟨task, htask, names, hnames, ⟨name, file⟩, hhead, hstep⟩ := hstep
  obtain ⟨rest, hfiles⟩ : ∃ rest, task.files = (name, file) :: rest := by
    cases hfiles : task.files with
    | nil => simp [hfiles] at hhead
    | cons first rest =>
        rw [hfiles, head?_cons] at hhead
        cases hhead
        exact ⟨rest, rfl⟩
  have hmem := mem_of_getElem? htask
  have hadvanced : Sound { s with
      reclaiming := s.reclaiming.set index ⟨task.files.tail, some names⟩ } := by
    refine h.of_pins h.covered (fun name hname => .inr hname) fun task' htask' other hother => ?_
    obtain htask' | rfl := mem_or_eq_of_mem_set htask'
    · exact h.released task' htask' other hother
    · have hreleased := h.released task hmem other (mem_of_mem_tail hother)
      refine ⟨hreleased.ever, fun names' hnames' => ?_, hreleased.same⟩
      cases hnames'
      exact hreleased.unreferenced names hnames
  split at hstep
  · next hgranted =>
      cases hstep
      obtain ⟨-, hnot, hlocked⟩ := hgranted
      have hreleased := h.released task hmem (name, file) (by simp [hfiles])
      suffices hdead : ¬ s.Live name by
        have hgone := hadvanced.unlink hdead (h.not_output_of_ever hreleased.ever)
        exact ⟨hgone.sound, hgone.keeps⟩
      intro hlive
      -- not referenced, so pinned, and then the lease of the pin has the lock
      have hsame : s.directory name = some file := hreleased.same hlive
      have hpinned : s.Pinned name := hlive.resolve_left (hreleased.unreferenced names hnames hnot)
      rw [h.locked_of_pinned hpinned hsame] at hlocked
      cases hlocked
  · cases hstep
    exact ⟨hadvanced, fun _ _ => rfl⟩

theorem of_retired (h : Sound s) {owner : Nat} {retired : List FileName}
    (hretired : ∀ name ∈ retired, name ∈ s.retired) : Sound { s with owner, retired } where
  published := ⟨h.published.generation, h.published.bound, h.published.current, h.published.old,
    h.published.present⟩
  retired := fun name hname => h.retired name (hretired name hname)
  released := fun task htask file hfile =>
    have hreleased := h.released task htask file hfile
    ⟨hreleased.ever, hreleased.unreferenced, hreleased.same⟩
  covered := fun pin hpin => ⟨(h.covered pin hpin).zero, (h.covered pin hpin).lease⟩
  jobs := fun id job hjob =>
    have hsound := h.jobs id job hjob
    ⟨hsound.captured, hsound.target, hsound.dead, hsound.ready⟩
  apart := h.apart
  superseded := h.superseded

theorem readManifest (h : Sound s) {index : Nat} {task : Reclamation}
    (htask : s.reclaiming[index]? = some task) :
    Sound { s with reclaiming := s.reclaiming.set index ⟨task.files, some s.referenced⟩ } := by
  refine h.of_pins h.covered (fun name hname => .inr hname) fun task' htask' file hfile => ?_
  obtain htask' | rfl := mem_or_eq_of_mem_set htask'
  · exact h.released task' htask' file hfile
  · have hreleased := h.released task (mem_of_getElem? htask) file hfile
    refine ⟨hreleased.ever, fun names hnames => ?_, hreleased.same⟩
    cases hnames
    exact id

end Sound

/-! ## Runs -/

/-- The condition on a step: generation 0 is not pinned while a manifest of version 1 has it. -/
def FileState.Leasable (s : FileState) : FileAction → Prop
  | .pin generation => generation = 0 → s.history 0 = none
  | _ => True

/-- Every action keeps the invariant and the live files. -/
theorem step_advances {s s' : FileState} {action : FileAction} (h : Sound s)
    (hleasable : s.Leasable action) (hstep : s.step action = some s') : Advances s s' := by
  cases action with
  | write name =>
      simp only [step, Option.ite_none_right_eq_some, Option.some.injEq] at hstep
      obtain ⟨⟨hfollows, -⟩, rfl⟩ := hstep
      exact h.create fun hlive => Sound.not_ever_of_follows h.published hfollows
        (Sound.ever_of_live h.published hlive)
  | unwrite name =>
      simp only [step, Option.ite_none_right_eq_some, Option.some.injEq] at hstep
      obtain ⟨⟨hfollows, -⟩, rfl⟩ := hstep
      refine h.unlink (fun hlive => Sound.not_ever_of_follows h.published hfollows
        (Sound.ever_of_live h.published hlive)) fun id job hjob hready hname => ?_
      have htarget := (h.jobs id job hjob).target name hname
      rw [Sound.target_of_follows hfollows] at htarget
      cases htarget
  | checkpoint plan retires => exact h.checkpoint hstep
  | beginCompaction id => exact h.beginCompaction hstep
  | claimOutput id sparse claim => exact h.claimOutput hstep
  | releaseInputs id => exact h.releaseInputs hstep
  | finish id checksum sparseChecksum retires => exact h.finish hstep
  | discard id removed => exact h.discard hstep
  | pin generation =>
      exact ⟨h.pin hleasable hstep, fun name _ => congrFun (Sound.pin_frame hstep).1 name⟩
  | unpin owner generation =>
      cases hstep
      exact ⟨h.unpin owner generation, fun _ _ => rfl⟩
  | readManifest index =>
      simp only [step, Option.bind_eq_bind, Option.bind_eq_some_iff, guard_some,
        exists_unit, Option.some.injEq] at hstep
      obtain ⟨task, htask, -, rfl⟩ := hstep
      exact ⟨h.readManifest htask, fun _ _ => rfl⟩
  | reclaimLeased index granted => exact h.reclaimLeased hstep
  | endReclaim index =>
      cases hstep
      refine ⟨h.of_pins h.covered (fun name hname => .inr hname) fun task htask => ?_,
        fun _ _ => rfl⟩
      exact h.released task (mem_of_mem_eraseIdx htask)
  | reclaimRetired name =>
      simp only [step, Option.ite_none_right_eq_some, Option.some.injEq] at hstep
      obtain ⟨hname, rfl⟩ := hstep
      have hretired := h.retired name hname
      exact h.tryReclaimFile hretired.2 (h.not_output_of_ever hretired.1)
  | forgetRetired name =>
      cases hstep
      exact ⟨h.of_retired fun _ hname => mem_of_mem_erase hname, fun _ _ => rfl⟩
  | reopen =>
      simp only [step, Option.ite_none_right_eq_some, Option.some.injEq] at hstep
      obtain ⟨-, rfl⟩ := hstep
      exact ⟨h.of_retired (by simp), fun _ _ => rfl⟩
  | scan name =>
      simp only [step, Option.ite_none_right_eq_some, Option.some.injEq] at hstep
      obtain ⟨⟨hempty, -, hname⟩, rfl⟩ := hstep
      refine h.tryReclaimFile hname fun id job hjob => ?_
      rw [Std.ExtTreeMap.isEmpty_iff.1 hempty] at hjob
      simp at hjob

/-- The states of a run in which every step meets the condition. -/
inductive Reached (s : FileState) : FileState → Prop
  | start : Reached s s
  | step {s' s'' : FileState} {action : FileAction} (h : Reached s s')
      (hleasable : s'.Leasable action) (hstep : s'.step action = some s'') : Reached s s''

/-- A directory as a process finds it: nothing is at work, and the files of its manifest other
than the sidecar are there. A manifest of version 1 has one segment. -/
structure Initial (s : FileState) : Prop where
  history : s.history = fun g => s.manifest.filter (·.generation = g)
  manifest : ∀ manifest, s.manifest = some manifest → WellNamed manifest ∧
    ∀ name ∈ manifest.names, (s.directory name).isSome ∨ name.isGraph
  pins : s.pins = []
  reclaiming : s.reclaiming = []
  retired : s.retired = []
  jobs : s.jobs = ∅

theorem sound_of_initial {s : FileState} (h : Initial s) : Sound s := by
  have hhistory : ∀ g manifest, s.history g = some manifest →
      s.manifest = some manifest ∧ manifest.generation = g := by
    intro g manifest heq
    rw [h.history, Option.filter_eq_some_iff] at heq
    simpa using heq
  exact
    { published :=
        { generation := fun g manifest heq =>
            ⟨(hhistory g manifest heq).2, (h.manifest manifest (hhistory g manifest heq).1).1⟩
          bound := fun g manifest heq =>
            ⟨manifest, (hhistory g manifest heq).1, (hhistory g manifest heq).2.ge⟩
          current := fun current hcurrent => by simp [h.history, hcurrent]
          old := by
            rintro current name hcurrent ⟨g, manifest, heq, hname⟩
            cases hcurrent.symm.trans (hhistory g manifest heq).1
            exact (h.manifest current hcurrent).1.old name hname
          present := by
            intro name hname
            cases hmanifest : s.manifest with
            | none => simp [referenced, hmanifest] at hname
            | some current =>
                refine (h.manifest current hmanifest).2 name ?_
                simpa [referenced, hmanifest] using hname }
      retired := by simp [h.retired]
      released := by simp [h.reclaiming]
      covered := by simp [h.pins]
      jobs := by simp [h.jobs]
      apart := by simp [h.jobs]
      superseded := by
        rintro name g ⟨g', manifest', heq', hname⟩ htarget manifest heq
        -- one manifest only, and its names are for generations up to its own
        obtain ⟨hmanifest', rfl⟩ := hhistory g' manifest' heq'
        obtain ⟨hmanifest, hgeneration⟩ := hhistory g manifest heq
        obtain rfl : manifest = manifest' := Option.some.inj (hmanifest.symm.trans hmanifest')
        have hold := (h.manifest manifest hmanifest).1.old name hname
        have := Sound.target_le hold htarget
        omega }

theorem sound_of_reached {s s' : FileState} (hinitial : Initial s) (h : Reached s s') :
    Sound s' := by
  induction h with
  | start => exact sound_of_initial hinitial
  | step _ hleasable hstep ih => exact (step_advances ih hleasable hstep).sound

/-- No live file is removed: in every run whose steps meet the condition, a file that the
published manifest or a pinned generation references stays through every step, and what the
published manifest references other than its sidecar is there. -/
theorem live_files_kept {s s₁ s₂ : FileState} {action : FileAction} (hinitial : Initial s)
    (h : Reached s s₁) (hleasable : s₁.Leasable action) (hstep : s₁.step action = some s₂) :
    (∀ name file, s₁.Live name → s₁.directory name = some file →
      s₂.directory name = some file) ∧
    ∀ name ∈ s₂.referenced, (s₂.directory name).isSome ∨ name.isGraph := by
  have hadvances := step_advances (sound_of_reached hinitial h) hleasable hstep
  exact ⟨fun name file hlive hfile => (hadvances.keeps name hlive).trans hfile,
    hadvances.sound.published.present⟩

/-- A directory at rest with one manifest and its files, numbered in order. -/
def restingState (manifest : Manifest) : FileState where
  directory name := if name ∈ manifest.names then some (manifest.names.idxOf name) else none
  nextFile := manifest.names.length
  manifest := some manifest
  history g := (some manifest).filter (·.generation = g)
  owner := 0
  pins := []
  reclaiming := []
  retired := []
  jobs := ∅

theorem initial_resting (h : WellNamed manifest) :
    Initial (restingState manifest) := by
  refine ⟨rfl, fun manifest' heq => ?_, rfl, rfl, rfl, rfl⟩
  cases heq
  exact ⟨h, fun name hname => .inl (by simp [restingState, hname])⟩

/-- A base without a sparse part. -/
def baseSegment (name : FileName) (sequence : Nat) : SegmentDescriptor :=
  ⟨1, 0, sequence, 0, name, 0, none, one_le_max_level, Nat.zero_le _⟩

/-- A manifest of one segment and generation 1. -/
def versionTwo : Manifest := ⟨2, 1, 5, 2, [baseSegment (.segmentBase 5) 5], none⟩

/-- A snapshot of generation 1, and a complete base of points in the place of its segment. -/
def leasedRun : List FileAction :=
  [.pin 1, .write (.pointBase 6 2 0), .checkpoint ⟨2, .point true 6 0 0, .drop, 2⟩ true]

theorem reached_of_run {s s' : FileState} {actions : List FileAction}
    (h : s.run actions = some s') (hpins : ∀ action ∈ actions, action ≠ .pin 0) :
    Reached s s' := by
  suffices hfrom : ∀ start, Reached start s → Reached start s' from hfrom s .start
  induction actions generalizing s with
  | nil =>
      cases h
      exact fun _ hreached => hreached
  | cons action actions ih =>
      rw [forall_mem_cons] at hpins
      obtain ⟨next, hstep, hrun⟩ := Option.bind_eq_some_iff.1 h
      refine fun start hreached => ih hrun hpins.2 start (hreached.step ?_ hstep)
      cases action with
      | pin generation => exact fun hzero => absurd (congrArg FileAction.pin hzero) hpins.1
      | _ => trivial

/-- The replaced segment is retired and pinned: the queue does not remove it. -/
theorem live_files_kept_retired :
    ∃ s₁ s₂, (restingState versionTwo).run leasedRun = some s₁ ∧
      s₁.step (.reclaimRetired (.segmentBase 5)) = some s₂ ∧ s₁.Live (.segmentBase 5) ∧
      s₂.directory (.segmentBase 5) = some 0 := by
  have hwell : WellNamed versionTwo :=
    ⟨by decide, by simp [versionTwo, Manifest.names, baseSegment, SegmentDescriptor.names,
      FileName.Old], nofun, by decide, nofun⟩
  have hrun : (((restingState versionTwo).run leasedRun).bind fun s₁ =>
      (s₁.step (.reclaimRetired (.segmentBase 5))).map fun _ =>
        (s₁.directory (.segmentBase 5), s₁.pins.map (·.generation), s₁.history 1)) =
      some (some 0, [1], some versionTwo) := by decide +kernel
  obtain ⟨s₁, hs₁, hrest⟩ := Option.bind_eq_some_iff.1 hrun
  obtain ⟨s₂, hs₂, hfacts⟩ := Option.map_eq_some_iff.1 hrest
  simp only [Prod.mk.injEq] at hfacts
  obtain ⟨hfile, hpins, hhistory⟩ := hfacts
  have hlive : s₁.Live (.segmentBase 5) := by
    obtain ⟨pin, hpin, hgeneration⟩ : ∃ pin ∈ s₁.pins, pin.generation = 1 := by
      rw [← mem_map, hpins]
      decide
    exact .inr ⟨pin, hpin, versionTwo, hgeneration ▸ hhistory, by decide⟩
  have hreached := reached_of_run hs₁ (by simp [leasedRun])
  have hleasable : s₁.Leasable (.reclaimRetired (.segmentBase 5)) := trivial
  exact ⟨s₁, s₂, hs₁, hs₂, hlive,
    (live_files_kept (initial_resting hwell) hreached hleasable hs₂).1 _ _ hlive hfile⟩

/-- A manifest of version 1: generation 0 and one segment. -/
def versionOne : Manifest :=
  ⟨2, 0, 5, 1, [baseSegment (.other "segment-5.bin") 5], none⟩

/-- A snapshot of generation 0, a flush, and a compaction. -/
def unleasedRun : List FileAction :=
  [.pin 0, .write (.segmentDelta 6), .write (.sparseDelta 6),
    .checkpoint ⟨2, .legacy 6 0 0, .drop, 2⟩ true, .beginCompaction 0, .claimOutput 0 true 0,
    .claimOutput 0 false 0, .releaseInputs 0, .finish 0 0 0 true]

/-- A pinned generation 0 does not protect the segment of a manifest of version 1. -/
theorem unleased_file_removed :
    Initial (restingState versionOne) ∧
    ∃ s₁ s₂, (restingState versionOne).run unleasedRun = some s₁ ∧
      s₁.step (.reclaimRetired (.other "segment-5.bin")) = some s₂ ∧
      s₁.Live (.other "segment-5.bin") ∧ s₁.directory (.other "segment-5.bin") = some 0 ∧
      s₂.directory (.other "segment-5.bin") = none := by
  have hwell : WellNamed versionOne :=
    ⟨by decide, by simp [versionOne, Manifest.names, baseSegment, SegmentDescriptor.names,
      FileName.Old], nofun, by decide, by decide⟩
  refine ⟨initial_resting hwell, ?_⟩
  have hrun : (((restingState versionOne).run unleasedRun).bind fun s₁ =>
      (s₁.step (.reclaimRetired (.other "segment-5.bin"))).map fun s₂ =>
        (s₁.directory (.other "segment-5.bin"), s₂.directory (.other "segment-5.bin"),
          s₁.pins.map (·.generation), s₁.history 0)) =
      some (some 0, none, [0], some versionOne) := by decide +kernel
  obtain ⟨s₁, hs₁, hrest⟩ := Option.bind_eq_some_iff.1 hrun
  obtain ⟨s₂, hs₂, hfacts⟩ := Option.map_eq_some_iff.1 hrest
  simp only [Prod.mk.injEq] at hfacts
  obtain ⟨hfile, hgone, hpins, hhistory⟩ := hfacts
  obtain ⟨pin, hpin, hgeneration⟩ : ∃ pin ∈ s₁.pins, pin.generation = 0 := by
    rw [← mem_map, hpins]
    decide
  exact ⟨s₁, s₂, hs₁, hs₂, .inr ⟨pin, hpin, versionOne, hgeneration ▸ hhistory, by decide⟩, hfile,
    hgone⟩

end Akasha.Storage

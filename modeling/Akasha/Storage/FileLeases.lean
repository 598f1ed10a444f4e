import Akasha.Storage.CommittedCompaction

/-!
# Which files may be removed

The files of a collection are removed by four parties: a compaction discards an output it did
not publish, the queue of retired files unlinks what a publish replaced, the last pin of a
generation unlinks what its lease still held, and the scan at open unlinks job outputs nobody
references. They work against leases: a pinned generation holds an advisory lock on each file of
its manifest, and a removal needs that lock for itself.

`FileState` is the directory with the objects of all processes that use it, and `step` is one
action of one of them. What the source does under one lock is one action; what other threads can
fall between is several. A file is known by the number it got when it was created, so that a
name which is used again is not mistaken for the file a lease was taken on.
-/

namespace Akasha.Storage

open Lib

/-- `ManifestFileLease`: the locked files of one generation, by name and number. -/
structure ManifestFileLease where
  files : List (FileName × Nat)
deriving DecidableEq, Repr

/-- One entry of a `GenerationPinRegistry`. The owner is the open collection whose registry it
stands in; it outlives that collection while a snapshot holds it. -/
structure GenerationPin where
  owner : Nat
  generation : Nat
  count : Nat
  lease : Option ManifestFileLease
deriving DecidableEq, Repr

/-- A lease whose last pin is gone and whose `reclaim` is under way: the names of the manifest
it has read, and the files it has not looked at yet. -/
structure Reclamation where
  files : List (FileName × Nat)
  referenced : Option (List FileName)
deriving DecidableEq, Repr

/-- A compaction between `begin_compaction` and the end of `finish_compaction`. -/
structure CompactionJob where
  captured : Manifest
  pinned : Bool
  sparseName : Option FileName
  segmentName : Option FileName
deriving DecidableEq, Repr

/-- The files a job has created. -/
def CompactionJob.outputs (job : CompactionJob) : List FileName :=
  job.sparseName.toList ++ job.segmentName.toList

/-- A directory and everything that is at work on it. `history` remembers the manifest that each
generation published. -/
structure FileState where
  directory : FileName → Option Nat
  nextFile : Nat
  manifest : Option Manifest
  history : Nat → Option Manifest
  owner : Nat
  pins : List GenerationPin
  reclaiming : List Reclamation
  retired : List FileName
  jobs : Std.ExtTreeMap Nat CompactionJob

/-- The file is created with `create_file_exclusive`. The others are written under a temporary
name and renamed. -/
def FileName.isExclusive : FileName → Bool
  | .pointBase .. | .pointDelta .. | .hnsw .. => true
  | _ => false

namespace FileState

/-! ## Files -/

/-- The names the published manifest references. -/
def referenced (s : FileState) : List FileName :=
  (s.manifest.map Manifest.names).getD []

/-- Put a new file at a name, in the place of what stood there. -/
def create (s : FileState) (name : FileName) : FileState :=
  { s with directory := Function.update s.directory name (some s.nextFile)
           nextFile := s.nextFile + 1 }

/-- `unlinkat`. -/
def unlink (s : FileState) (name : FileName) : FileState :=
  { s with directory := Function.update s.directory name none }

/-- Some pinned lease holds the shared lock of a file. A lease that is being given up is not
counted: it may have lost its lock in an attempt to make it exclusive. -/
def locked (s : FileState) (file : Nat) : Bool :=
  s.pins.any fun pin => pin.lease.any fun lease => lease.files.any (·.2 = file)

/-- `try_reclaim_file`: unlink a name unless its file is locked. -/
def tryReclaimFile (s : FileState) (name : FileName) : FileState :=
  match s.directory name with
  | none => s
  | some file => if s.locked file then s else s.unlink name

/-! ## Pins -/

/-- `ManifestFileLease.__init__`: lock every file of the manifest, of which only the sidecar may
be missing. -/
def leaseFiles (s : FileState) (manifest : Manifest) : Option ManifestFileLease :=
  if ∀ name ∈ manifest.names, (s.directory name).isSome ∨ manifest.hnsw.map (·.name) = some name
  then some ⟨manifest.names.filterMap fun name => (s.directory name).map (name, ·)⟩
  else none

/-- `GenerationPinRegistry.pin`. A generation that is pinned already is counted; otherwise the
published manifest must have it, except that generation 0 takes no lease. -/
def pin (s : FileState) (generation : Nat) : Option FileState :=
  if s.pins.any (fun pin => pin.owner = s.owner ∧ pin.generation = generation) then
    some { s with pins := s.pins.map fun pin =>
      if pin.owner = s.owner ∧ pin.generation = generation
      then { pin with count := pin.count + 1 } else pin }
  else if generation = 0 then
    some { s with pins := s.pins ++ [⟨s.owner, 0, 1, none⟩] }
  else do
    let manifest ← s.manifest
    guard (manifest.generation = generation)
    let lease ← s.leaseFiles manifest
    some { s with pins := s.pins ++ [⟨s.owner, generation, 1, some lease⟩] }

/-- The list of pins without one count of a generation, and the lease this gives up. -/
def releasePin (owner generation : Nat) :
    List GenerationPin → List GenerationPin × Option ManifestFileLease
  | [] => ([], none)
  | pin :: pins =>
      if pin.owner = owner ∧ pin.generation = generation then
        if pin.count ≤ 1 then (pins, pin.lease)
        else ({ pin with count := pin.count - 1 } :: pins, none)
      else
        let (rest, lease) := releasePin owner generation pins
        (pin :: rest, lease)

/-- `GenerationPinRegistry.unpin`, up to the reclamation of the lease. -/
def unpin (s : FileState) (owner generation : Nat) : FileState :=
  let (pins, lease) := releasePin owner generation s.pins
  { s with pins
           reclaiming := s.reclaiming ++ (lease.map fun lease => ⟨lease.files, none⟩).toList }

/-! ## Checkpoints -/

/-- The generation of the next manifest. -/
def nextGeneration (s : FileState) : Nat :=
  match s.manifest with
  | none => 1
  | some manifest => manifest.generation + 1

/-- The sequence the published manifest covers; below every sequence without one. -/
def covers (s : FileState) (sequence : Nat) : Bool :=
  match s.manifest with
  | none => false
  | some manifest => sequence ≤ manifest.lastSequence

/-- The names of a checkpoint that follows the published manifest: by a sequence above it, or by
the next generation. -/
def follows (s : FileState) : FileName → Bool
  | .segmentBase _ | .sparseBase _ => s.manifest.isNone
  | .segmentDelta sequence | .sparseDelta sequence => !s.covers sequence
  | .pointBase _ generation _ | .pointDelta _ generation _ | .hnsw _ generation _ =>
      generation = s.nextGeneration
  | _ => false

end FileState

/-- The segment part of a checkpoint: none, one of the old format, or one of points. -/
inductive CheckpointBody where
  | unchanged
  | legacy (sequence : Nat) (checksum sparseChecksum : UInt32)
  | point (full : Bool) (sequence : Nat) (checksum : UInt32) (claim : Nat)

/-- The sidecar of a checkpoint. -/
inductive CheckpointGraph where
  | retain
  | drop
  | fresh (reference : HnswReference)

/-- The segment a checkpoint adds: a complete base over nothing before it, or the changes above
the previous manifest. -/
def CheckpointBody.segment (body : CheckpointBody) (previous : Option Manifest)
    (generation : Nat) : Option SegmentDescriptor :=
  match body, previous with
  | .unchanged, _ => none
  | .legacy sequence checksum sparseChecksum, none =>
      some ⟨1, 0, sequence, checksum, .segmentBase sequence, sparseChecksum,
        some (.sparseBase sequence), one_le_max_level, Nat.zero_le _⟩
  | .legacy sequence checksum sparseChecksum, some manifest =>
      if h : manifest.lastSequence + 1 ≤ sequence then
        some ⟨0, manifest.lastSequence + 1, sequence, checksum, .segmentDelta sequence,
          sparseChecksum, some (.sparseDelta sequence), zero_le_max_level, h⟩
      else none
  | .point true sequence checksum claim, _ =>
      some ⟨1, 0, sequence, checksum, .pointBase sequence generation claim, 0, none, one_le_max_level,
        Nat.zero_le _⟩
  | .point false _ _ _, none => none
  | .point false sequence checksum claim, some manifest =>
      if h : manifest.lastSequence + 1 ≤ sequence then
        some ⟨0, manifest.lastSequence + 1, sequence, checksum,
          .pointDelta sequence generation claim, 0, none, zero_le_max_level, h⟩
      else none

/-- The choices of one checkpoint. -/
structure CheckpointPlan where
  dimension : Nat
  body : CheckpointBody
  graph : CheckpointGraph
  formatVersion : Nat

namespace CheckpointPlan

/-- The previous segments that a checkpoint keeps: all of them, unless it writes a complete
base. -/
def kept (plan : CheckpointPlan) (previous : Option Manifest) : List SegmentDescriptor :=
  match plan.body with
  | .point true _ _ _ => []
  | _ => (previous.map Manifest.segments).getD []

/-- The sidecar of the new manifest. -/
def sidecar (plan : CheckpointPlan) (previous : Option Manifest) : Option HnswReference :=
  match plan.graph with
  | .retain => previous.bind Manifest.hnsw
  | .drop => none
  | .fresh reference => some reference

/-- The manifest of a checkpoint. -/
def manifest (plan : CheckpointPlan) (previous : Option Manifest) (generation : Nat) :
    Except String Manifest :=
  let added := plan.body.segment previous generation
  let segments := plan.kept previous ++ added.toList
  let lastSequence := (added.map (·.maxSequence)).getD
    ((previous.map Manifest.lastSequence).getD 0)
  match plan.sidecar previous with
  | some reference =>
      Manifest.withHnsw plan.dimension generation lastSequence segments reference
        plan.formatVersion
  | none => Manifest.withSegments plan.dimension generation lastSequence segments

/-- The files a checkpoint has written for its manifest. -/
def created (plan : CheckpointPlan) (previous : Option Manifest) (generation : Nat) :
    List FileName :=
  (plan.body.segment previous generation).toList.flatMap SegmentDescriptor.names ++
    match plan.graph with
    | .fresh reference => [reference.name]
    | _ => []

/-- The segments that a complete base replaces. -/
def replacedSegments (plan : CheckpointPlan) (previous : Manifest) : List FileName :=
  match plan.body with
  | .point true _ _ _ => compactionInputPaths previous
  | _ => []

/-- The files a checkpoint retires: segments it replaced, and a sidecar it did not keep. -/
def replaced (plan : CheckpointPlan) (previous : Option Manifest) : List FileName :=
  match previous with
  | none => []
  | some manifest =>
      plan.replacedSegments manifest ++
        (((manifest.hnsw.map (·.name)).toList).filter
          (some · ≠ (plan.sidecar previous).map (·.name)))

end CheckpointPlan

/-! ## Actions -/

/-- One action on the directory. -/
inductive FileAction where
  | write (name : FileName)
  | unwrite (name : FileName)
  | checkpoint (plan : CheckpointPlan) (retires : Bool)
  | beginCompaction (id : Nat)
  | claimOutput (id : Nat) (sparse : Bool) (claim : Nat)
  | releaseInputs (id : Nat)
  | finish (id : Nat) (checksum sparseChecksum : UInt32) (retires : Bool)
  | discard (id : Nat) (removed : List FileName)
  | pin (generation : Nat)
  | unpin (owner generation : Nat)
  | readManifest (index : Nat)
  | reclaimLeased (index : Nat) (granted : Bool)
  | endReclaim (index : Nat)
  | reclaimRetired (name : FileName)
  | forgetRetired (name : FileName)
  | reopen
  | scan (name : FileName)

/-- `_is_job_output`: a name that says it was created exclusively for a generation. -/
def FileName.isJobOutput : FileName → Bool
  | .hnsw _ generation _ | .pointBase _ generation _ | .pointDelta _ generation _
  | .segmentCompact generation _ | .sparseCompact generation _ => 0 < generation
  | _ => false

namespace FileState

/-- `publish_manifest`. -/
def publish (s : FileState) (manifest : Manifest) : FileState :=
  { s with manifest := some manifest
           history := Function.update s.history manifest.generation (some manifest) }

/-- Enter or replace a job. -/
def setJob (s : FileState) (id : Nat) (job : CompactionJob) : FileState :=
  { s with jobs := s.jobs.insert id job }

/-- The job is over. -/
def endJob (s : FileState) (id : Nat) : FileState :=
  { s with jobs := s.jobs.erase id }

/-- `remove_file_if_exists` of each name. -/
def removeFiles (s : FileState) (names : List FileName) : FileState :=
  names.foldl unlink s

/-- A checkpoint under the writer lock: the files of its new segment and sidecar are there, and
the manifest follows the published one. `retires` is false when it raised after the publish. -/
def checkpoint (s : FileState) (plan : CheckpointPlan) (retires : Bool) : Option FileState := do
  let next ← (plan.manifest s.manifest s.nextGeneration).toOption
  guard (∀ previous ∈ s.manifest, previous.lastSequence ≤ next.lastSequence)
  guard (∀ name ∈ plan.created s.manifest s.nextGeneration,
    s.follows name ∧ (s.directory name).isSome)
  let published := s.publish next
  some { published with
    retired := s.retired ++ if retires then plan.replaced s.manifest else [] }

/-- `begin_compaction`: capture at least two segments and pin their generation. -/
def beginCompaction (s : FileState) (id : Nat) : Option FileState := do
  guard (id ∉ s.jobs)
  let manifest ← s.manifest
  guard (2 ≤ manifest.segments.length ∧ manifest.generation ≠ maxGeneration)
  let pinned ← s.pin manifest.generation
  some (pinned.setJob id ⟨manifest, true, none, none⟩)

/-- `_claim_output`: create the first free name for the generation after the captured one. -/
def claimOutput (s : FileState) (id : Nat) (sparse : Bool) (claim : Nat) : Option FileState := do
  let job ← s.jobs[id]?
  guard job.pinned
  let name : FileName :=
    if sparse then .sparseCompact (job.captured.generation + 1) claim
    else .segmentCompact (job.captured.generation + 1) claim
  guard (s.directory name = none ∧ (if sparse then job.sparseName else job.segmentName) = none)
  some ((s.create name).setJob id
    (if sparse then { job with sparseName := some name } else { job with segmentName := some name }))

/-- The first statement of `finish_compaction`, or the last of a build that failed. -/
def releaseInputs (s : FileState) (id : Nat) : Option FileState := do
  let job ← s.jobs[id]?
  guard job.pinned
  some ((s.unpin s.owner job.captured.generation).setJob id { job with pinned := false })

/-- The publish of `finish_compaction`. -/
def finish (s : FileState) (id : Nat) (checksum sparseChecksum : UInt32) (retires : Bool) :
    Option FileState := do
  let job ← s.jobs[id]?
  guard (!job.pinned)
  let segmentName ← job.segmentName
  let current ← s.manifest
  let output : CompactionOutput := ⟨segmentName, checksum, job.sparseName, sparseChecksum⟩
  let next ← (rebase current job.captured output).toOption.join
  let published := s.publish next
  some ({ published with
    retired := s.retired ++ if retires then compactionInputPaths job.captured else [] }.endJob id)

/-- The end of a job that is not published: some or all of its files are removed. A build that
failed removes them before it gives up its pin. -/
def discard (s : FileState) (id : Nat) (removed : List FileName) : Option FileState := do
  let job ← s.jobs[id]?
  guard (∀ name ∈ removed, name ∈ job.outputs)
  let gone := s.removeFiles removed
  some ((if job.pinned then gone.unpin s.owner job.captured.generation else gone).endJob id)

/-- The next file of a reclamation: kept when the manifest references it or another lease has
it, else unlinked. -/
def reclaimLeased (s : FileState) (index : Nat) (granted : Bool) : Option FileState := do
  let task ← s.reclaiming[index]?
  let names ← task.referenced
  let (name, file) ← task.files.head?
  let advanced := { s with reclaiming := s.reclaiming.set index ⟨task.files.tail, some names⟩ }
  if granted ∧ name ∉ names ∧ !s.locked file then some (advanced.unlink name) else some advanced

/-- One action; none where the source would not take it or raises without an effect. -/
def step (s : FileState) : FileAction → Option FileState
  | .write name =>
      if s.follows name ∧ (name.isExclusive → s.directory name = none)
      then some (s.create name) else none
  | .unwrite name =>
      if s.follows name ∧ name.isExclusive then some (s.unlink name) else none
  | .checkpoint plan retires => s.checkpoint plan retires
  | .beginCompaction id => s.beginCompaction id
  | .claimOutput id sparse claim => s.claimOutput id sparse claim
  | .releaseInputs id => s.releaseInputs id
  | .finish id checksum sparseChecksum retires => s.finish id checksum sparseChecksum retires
  | .discard id removed => s.discard id removed
  | .pin generation => s.pin generation
  | .unpin owner generation => some (s.unpin owner generation)
  | .readManifest index => do
      let task ← s.reclaiming[index]?
      guard (task.referenced = none ∧ s.manifest.isSome)
      some { s with reclaiming := s.reclaiming.set index ⟨task.files, some s.referenced⟩ }
  | .reclaimLeased index granted => s.reclaimLeased index granted
  | .endReclaim index => some { s with reclaiming := s.reclaiming.eraseIdx index }
  | .reclaimRetired name => if name ∈ s.retired then some (s.tryReclaimFile name) else none
  | .forgetRetired name => some { s with retired := s.retired.erase name }
  | .reopen =>
      if s.jobs.isEmpty then some { s with owner := s.owner + 1, retired := [] } else none
  | .scan name =>
      if s.jobs.isEmpty ∧ name.isJobOutput ∧ name ∉ s.referenced then some (s.tryReclaimFile name)
      else none

/-- A run of actions. -/
def run (s : FileState) : List FileAction → Option FileState
  | [] => some s
  | action :: actions => s.step action >>= fun next => next.run actions

end FileState

end Akasha.Storage

import Akasha.Distributed.ReplicaRun
import Akasha.Lib.Fault

/-!
# Installing a snapshot

`install_snapshot` builds a whole shard directory beside the one in use and swaps the two by
renames. The directory that holds them has four entries: the shard's root, and the stage, the
backup and the failed directory of `_snapshot_workspaces`. Every change of an entry is one step
of a program in `FaultM`, so that the process may die before any step and one step may fail.
`reopen` is what constructing `ReplicaShard` again gives: it depends only on the entry that
`_recover_snapshot_workspaces` keeps, which is the root, or the backup where there is no root.
-/

namespace Akasha.Distributed.Snapshot

open Lib Lib.Exec Lib.FaultM ReplicaJournal

/-! ## The request -/

/-- The loop of a check that remembers the keys it has seen. -/
def checkAll {α : Type} (check : List α → Json → Except Error α) :
    List α → List Json → Except Error Unit
  | _, [] => pure ()
  | seen, item :: items => do
      let key ← check seen item
      checkAll check (key :: seen) items

/-- `type(value) in {int, float}` and `math.isfinite(float(value))`. -/
def finiteValue (untyped infinite : Error) : Json → Except Error Unit
  | .int value =>
      match F64.ofInt? value with
      | some converted => require converted.isFinite infinite
      | none => throw (.runtime "int too large to convert to float")
  | .float value => require value.isFinite infinite
  | _ => throw untyped

/-- The value of a payload item has the type its kind names. -/
def parsePayloadValue (kind : String) (value : Json) : Except Error Unit := do
  require (kind = "string" → value.isStr) (.protocol "snapshot string payload type mismatch")
  require (kind = "int" → value.isInt) (.protocol "snapshot integer payload type mismatch")
  require (kind = "bool" → value.isBool) (.protocol "snapshot boolean payload type mismatch")
  if kind = "float" then
    let mismatch := Error.protocol "snapshot float payload type mismatch"
    finiteValue mismatch mismatch value
  else pure ()

/-- One payload item of a row, after the names already seen. -/
def parsePayloadItem (names : List String) (item : Json) : Except Error String := do
  require (item.hasKeys ["name", "type", "value"])
    (.protocol "snapshot payload fields mismatch")
  let name ← exactStr (.protocol "snapshot payload names must be unique strings")
    (field item "name")
  require (name ≠ "" ∧ name ∉ names) (.protocol "snapshot payload names must be unique strings")
  let kind ← exactStr (.protocol "snapshot payload type is invalid") (field item "type")
  require (kind ∈ payloadKinds) (.protocol "snapshot payload type is invalid")
  parsePayloadValue kind (field item "value")
  pure name

/-- One sparse element of a row, after the terms already seen. -/
def parseSparseItem (terms : List Int) (item : Json) : Except Error Int := do
  require (item.hasKeys ["term_id", "weight"]) (.protocol "snapshot sparse fields mismatch")
  let term ← exactInt "snapshot sparse term ID" (field item "term_id")
  require (0 ≤ term ∧ term ∉ terms)
    (.protocol "snapshot sparse term IDs must be unique and non-negative")
  let mismatch := Error.protocol "snapshot sparse weights must be finite numbers"
  finiteValue mismatch mismatch (field item "weight")
  pure term

/-- One row of `_parse_snapshot_rows`, after the point ids already seen. -/
def parseSnapshotRow (dimension : Nat) (seen : List Int) (row : Json) : Except Error Int := do
  require (row.hasKeys ["id", "sequence", "vector", "fields", "sparse"])
    (.protocol "snapshot row fields mismatch")
  let id ← exactInt "snapshot point id" (field row "id")
  let sequence ← exactInt "snapshot sequence" (field row "sequence")
  require (0 < sequence) (.protocol "snapshot sequence must be positive")
  require (id ∉ seen) (.protocol "snapshot point IDs must be unique")
  let vector ← exactList (.protocol "snapshot vector dimension mismatch") (field row "vector")
  require (vector.length = dimension) (.protocol "snapshot vector dimension mismatch")
  vector.forM (finiteValue (.protocol "snapshot vector values must be numeric")
    (.protocol "snapshot vector values must be finite"))
  let payload ← exactList (.protocol "snapshot fields must be a list") (field row "fields")
  checkAll parsePayloadItem [] payload
  let sparse ← exactList (.protocol "snapshot sparse vector must be a list")
    (field row "sparse")
  checkAll parseSparseItem [] sparse
  pure id

/-- `_parse_snapshot_rows`. The conversions of its results are those of the kernel boundary, so
the rows themselves are kept. -/
def parseSnapshotRows (dimension : Nat) (rows : Json) : Except Error (List Json) := do
  let items ← exactList (.protocol "snapshot rows must be a list") rows
  checkAll (parseSnapshotRow dimension) [] items
  pure items

/-- The arguments of `install_snapshot`. -/
structure SnapshotRequest where
  rows : Json
  config : Json
  index : Json
  term : Json
  placementEpoch : Json
  checksum : Json

/-- What the checks of `install_snapshot` leave of its arguments. -/
structure SnapshotCall where
  rows : List Json
  state : ReplicaState

section

variable [FloatRepr]

/-- `snapshot_checksum`. -/
def snapshotChecksum (rows config : Json) (index : Int) : Nat :=
  checksumOf (.obj [("rows", rows), ("collection_config", config), ("index", .int index)])

/-- The checks of `install_snapshot`, before it touches a file. The shard's own configuration
passed `canonical_collection_config` when the shard was constructed, so only an equal one does
both that and the comparison. -/
def checkRequest (shard : ReplicaShard) (config : Json) (request : SnapshotRequest) :
    Except Error SnapshotCall := do
  let index ← exactInt "snapshot index" request.index
  let term ← exactInt "snapshot term" request.term
  let placementEpoch ← exactInt "snapshot placement epoch" request.placementEpoch
  let checksum ← exactInt "snapshot checksum" request.checksum
  require (shard.state.appliedIndex ≤ index) (.protocol "snapshot cannot regress applied index")
  require (shard.state.term ≤ term ∧ shard.state.placementEpoch ≤ placementEpoch)
    (.staleEpoch "snapshot epoch regression")
  require (request.config.same config) (.protocol "snapshot collection config mismatch")
  let rows ← parseSnapshotRows shard.dimension request.rows
  require (checksum = snapshotChecksum request.rows request.config index)
    (.protocol "snapshot checksum mismatch")
  pure ⟨rows, term.toNat, placementEpoch.toNat, index.toNat⟩

end

/-- The conversion of one row to a mutation of a batch. -/
def batchDocument (row : Json) : Except Error BatchDocument := do
  let values ← kernelVector (field row "vector")
  let fields ← kernelFields (field row "fields")
  let id ← kernelInt (field row "id")
  pure (id, values, fields)

/-- The batch of documents of a staged collection. -/
def batchStep (dimension : Nat) (rows : List Json) (points : PointMap) :
    Except Error PointMap := do
  let documents ← rows.mapM batchDocument
  applyBatch dimension documents points

/-- The writes of a staged collection: one batch, then the sparse vectors row by row. -/
def stagedSteps (dimension : Nat) (rows : List Json) : List (PointMap → Except Error PointMap) :=
  if rows.isEmpty then []
  else batchStep dimension rows :: (rows.filter hasSparse).map sparseStep

/-! ## The directories -/

/-- The directory of the shard and its three siblings. -/
inductive Place where
  | root
  | stage
  | backup
  | failed
deriving DecidableEq, Repr

/-- A shard directory. `rmtree` removes its files one after another, in no order that matters:
all that is known in between is that some are gone. -/
inductive Directory where
  | intact (disk : ShardDisk)
  | partlyRemoved

/-- The files that a directory still has for sure. -/
def Directory.disk : Directory → ShardDisk
  | .intact disk => disk
  | .partlyRemoved => .empty

/-- A change of the files of a directory. -/
def Directory.change (f : ShardDisk → ShardDisk) : Directory → Directory
  | .intact disk => .intact (f disk)
  | .partlyRemoved => .partlyRemoved

/-- What stands at each place of the parent directory. -/
abbrev SnapshotTree := Place → Option Directory

/-- What a `ReplicaShard` holds: its epochs, applied index and journal, and its points. -/
structure ShardView where
  shard : ReplicaShard
  points : PointMap

/-- The parent directory, and the object of the process: the shard and its collection, which is
absent while it is closed. -/
structure ShardHost where
  tree : SnapshotTree
  shard : ReplicaShard
  collection : Option PointMap

/-- A method of the object, or its constructor. -/
abbrev HostM := FaultM ShardHost Error

/-- A change of the parent directory. -/
def changeTree (change : SnapshotTree → SnapshotTree) : HostM Unit :=
  step fun host => { host with tree := change host.tree }

/-- `_fsync_directory`, or a read: a step that changes no file. -/
def touch : HostM Unit := changeTree id

/-- `os.replace` of directories, which does not replace one that has entries. -/
def rename (source target : Place) : HostM Unit := do
  let host ← get
  ensure ((host.tree source).isSome ∧ (host.tree target).isNone)
    (.raised (.runtime "cannot replace directory"))
  changeTree fun tree =>
    Function.update (Function.update tree target (tree source)) source none

/-- `_remove_snapshot_workspace`. -/
def removeSnapshotWorkspace (place : Place) : HostM Unit := do
  let host ← get
  if (host.tree place).isSome then do
    changeTree fun tree => Function.update tree place (some .partlyRemoved)
    changeTree fun tree => Function.update tree place none
  else pure ()

/-- The first part of `_recover_snapshot_workspaces`: a backup is put back where there is no
root, and is left over from a finished swap where there is one. -/
def settleBackup : HostM Unit := do
  let host ← get
  if (host.tree .backup).isSome then
    if (host.tree .root).isSome then removeSnapshotWorkspace .backup
    else do
      rename .backup .root
      touch
  else pure ()

/-- `_recover_snapshot_workspaces`. -/
def recoverSnapshotWorkspaces : HostM Unit := do
  settleBackup
  removeSnapshotWorkspace .stage
  removeSnapshotWorkspace .failed

/-- A change of the staged files. -/
def changeStage (change : ShardDisk → ShardDisk) : HostM Unit :=
  changeTree fun tree => Function.update tree .stage ((tree .stage).map (.change change))

/-- The files at a place. -/
def ShardHost.diskAt (host : ShardHost) (place : Place) : ShardDisk :=
  ((host.tree place).map Directory.disk).getD .empty

/-- One write of the staged collection. -/
def stageWrite (write : PointMap → Except Error PointMap) : HostM Unit := do
  let host ← get
  let points ← ofExcept (write (host.diskAt .stage).collection)
  changeStage fun disk => { disk with collection := points }

/-- The staged directory: its collection, which is flushed and closed, its journal with one
record, whose append is two writes, and its state file. -/
def stageSnapshot (dimension : Nat) (call : SnapshotCall) : HostM Unit := do
  touch
  forEach (stagedSteps dimension call.rows) stageWrite
  touch
  changeStage fun disk => { disk with journal := disk.journal.tear }
  changeStage fun disk =>
    { disk with journal := disk.journal.append (.snapshot call.state.appliedIndex) }
  changeStage fun disk => { disk with state := call.state }
  touch

/-- `Collection(self.root / "collection", …)`. -/
def openCollection : HostM PointMap := do
  touch
  let host ← get
  pure (host.diskAt .root).collection

/-- The files without a torn line at the end of the journal. -/
def repaired (disk : ShardDisk) : ShardDisk :=
  { disk with journal := { disk.journal with torn := false } }

/-- Cut a torn line off the journal of the root. -/
def cutTornLine : HostM Unit := do
  let host ← get
  if (host.diskAt .root).journal.torn then
    changeTree fun tree =>
      Function.update tree .root ((tree .root).map (.change repaired))
  else pure ()

/-- `self.collection = Collection(self.root / "collection", …)`. -/
def reopenCollection : HostM Unit := do
  let points ← openCollection
  modify fun host => { host with collection := some points }

/-- Move a root that the swap put in place out of the way. -/
def setRootAside : HostM Unit := do
  let host ← get
  if (host.tree .root).isSome then rename .root .failed else pure ()

section

variable [FloatRepr]

/-- `ReplicaJournal(self.root / "replicated.log")`, which cuts off a torn line. -/
def openJournal : HostM ReplicaJournal := do
  touch
  let host ← get
  let journal ← ofExcept (load (host.diskAt .root).journal.lines)
  cutTornLine
  pure journal

/-- The second rename and the objects of the new root. -/
def swapStage (index : Nat) : HostM (PointMap × ReplicaJournal) := do
  rename .stage .root
  touch
  let points ← openCollection
  let journal ← openJournal
  ensure (journal.snapshotIndex = index)
    (.raised (.protocol "installed snapshot journal mismatch"))
  pure (points, journal)

/-- The handler of a swap that failed: put the backup back and reopen it. -/
def rollBack (e : Lib.Fault Error) : HostM (PointMap × ReplicaJournal) := do
  setRootAside
  rename .backup .root
  touch
  reopenCollection
  let journal ← openJournal
  modify fun host => { host with shard := { host.shard with journal } }
  removeSnapshotWorkspace .failed
  raise e

/-- The body of the `try` statement of `install_snapshot`. Closing a collection changes no
file. -/
def installStaged (dimension : Nat) (call : SnapshotCall) : HostM Unit := do
  stageSnapshot dimension call
  modify fun host => { host with collection := none }
  recovering (rename .root .backup) fun e => do
    reopenCollection
    raise e
  let (points, journal) ← recovering (swapStage call.state.appliedIndex) rollBack
  modify fun host =>
    { host with
      collection := some points
      shard := { host.shard with state := call.state, journal } }
  removeSnapshotWorkspace .backup
  touch

/-- `install_snapshot`. -/
def installSnapshot (config : Json) (request : SnapshotRequest) : HostM Unit := do
  let host ← get
  let call ← ofExcept (checkRequest host.shard config request)
  recoverSnapshotWorkspaces
  changeTree fun tree => Function.update tree .stage (some (.intact .empty))
  always (installStaged host.shard.dimension call) (removeSnapshotWorkspace .stage)

/-! ## Constructing the shard again -/

/-- The rest of `ReplicaShard.__init__` once the workspaces are settled. What a directory with
missing files gives is not modelled: no step below leaves one as the root. -/
def openDirectory (shardId dimension : Nat) : Directory → Except Error ShardView
  | .intact disk =>
      match openShard shardId dimension ⟨disk, .unread shardId dimension, none⟩ with
      | (.ok (), process) => .ok ⟨process.shard, process.disk.collection⟩
      | (.error e, _) => .error e
  | .partlyRemoved => .error (.runtime "files are missing")

/-- `ReplicaShard(root, …)` on the parent directory: settle the workspaces, make the root if
there is none, and read it. -/
def reopen (shardId dimension : Nat) (tree : SnapshotTree) : Except Error ShardView :=
  let host : ShardHost := ⟨tree, .unread shardId dimension, none⟩
  let settled := (recoverSnapshotWorkspaces ⟨host, none, none⟩).2.state
  openDirectory shardId dimension ((settled.tree .root).getD (.intact .empty))

/-- The state a request asks for: the points of its rows, and a journal that starts after
them. -/
def requestedView (shard : ReplicaShard) (config : Json) (request : SnapshotRequest) :
    Except Error ShardView := do
  let call ← checkRequest shard config request
  let points ← runSteps (stagedSteps shard.dimension call.rows) ∅
  pure ⟨⟨shard.shardId, shard.dimension, call.state,
    { empty with snapshotIndex := call.state.appliedIndex }⟩, points⟩

end

/-! ## What each step leaves alone -/

/-- Two hosts differ at most in what stands at one place. -/
structure SameBut (place : Place) (before after : ShardHost) : Prop where
  tree : ∀ other, other ≠ place → after.tree other = before.tree other
  shard : after.shard = before.shard
  collection : after.collection = before.collection

variable {host : ShardHost} {place : Place}

theorem SameBut.rfl : SameBut place host host :=
  ⟨fun _ _ => Eq.refl _, Eq.refl _, Eq.refl _⟩

theorem SameBut.trans {first second third : ShardHost} (h : SameBut place first second)
    (h' : SameBut place second third) :
    SameBut place first third :=
  ⟨fun other hne => (h'.tree other hne).trans (h.tree other hne), h'.shard.trans h.shard,
    h'.collection.trans h.collection⟩

section

variable {Q : Unit → Faulty ShardHost → Prop} {E : Lib.Fault Error → Faulty ShardHost → Prop}
  {s : Faulty ShardHost}

theorem wp_change_tree {change : SnapshotTree → SnapshotTree}
    (hok : ∀ s' : Faulty ShardHost, s'.state = { s.state with tree := change s.state.tree } →
      s.Reaches s' → Q () s')
    (herr : ∀ e (s' : Faulty ShardHost), s'.state = s.state → Struck s e s' → E e s') :
    wp (changeTree change) Q E s :=
  wp_step hok herr

theorem wp_touch
    (hok : ∀ s' : Faulty ShardHost, s'.state = s.state → s.Reaches s' → Q () s')
    (herr : ∀ e (s' : Faulty ShardHost), s'.state = s.state → Struck s e s' → E e s') :
    wp touch Q E s :=
  wp_change_tree hok herr

theorem wp_rename {source target : Place} (hsource : (s.state.tree source).isSome)
    (htarget : s.state.tree target = none)
    (hok : ∀ s' : Faulty ShardHost, s'.state = { s.state with
        tree := Function.update (Function.update s.state.tree target (s.state.tree source))
          source none } →
      s.Reaches s' → Q () s')
    (herr : ∀ e (s' : Faulty ShardHost), s'.state = s.state → Struck s e s' → E e s') :
    wp (rename source target) Q E s := by
  simp only [rename, wp_bind, wp_get, wp_ensure, hsource, htarget, Option.isNone_none, and_self,
    not_true_eq_false, false_implies, and_true, true_implies]
  exact wp_change_tree hok herr

/-- Removing a workspace changes nothing else, however far it gets. -/
theorem wp_remove_workspace (place : Place)
    (hok : ∀ s' : Faulty ShardHost, SameBut place s.state s'.state → s'.state.tree place = none →
      s.Reaches s' → Q () s')
    (herr : ∀ e (s' : Faulty ShardHost), SameBut place s.state s'.state → Struck s e s' →
      E e s') :
    wp (removeSnapshotWorkspace place) Q E s := by
  simp only [removeSnapshotWorkspace, wp_bind, wp_get, wp_ite, wp_pure]
  have hupdate : ∀ (host : ShardHost) (entry : Option Directory), SameBut place host
      { host with tree := Function.update host.tree place entry } := fun host entry =>
    ⟨fun other hne => Function.update_of_ne hne _ _, Eq.refl _, Eq.refl _⟩
  refine ⟨fun _ => ?_, fun hnone => hok s .rfl (by simpa using hnone) (reaches_refl s)⟩
  refine wp_change_tree (fun s₁ hs₁ hreach₁ => ?_) fun e s' hs' => herr e s' (hs' ▸ .rfl)
  have hsame := hupdate s.state (some .partlyRemoved)
  rw [← hs₁] at hsame
  refine wp_change_tree (fun s₂ hs₂ hreach₂ => ?_) fun e s' hs' hstruck =>
    herr e s' (hs' ▸ hsame) (struck_of_reaches hreach₁ hstruck)
  have hsame' := hupdate s₁.state none
  rw [← hs₂] at hsame'
  refine hok s₂ (hsame.trans hsame') ?_ (reaches_trans hreach₁ hreach₂)
  rw [hs₂]
  exact Function.update_self _ _ _

/-! ## Recovery -/

/-- The entry that recovery keeps as the root. -/
def survivor (tree : SnapshotTree) : Option Directory :=
  (tree .root).or (tree .backup)

theorem SameBut.survivor_eq {before after : ShardHost} (h : SameBut place before after)
    (hroot : place ≠ .root) (hbackup : place = .backup → (before.tree .root).isSome) :
    survivor after.tree = survivor before.tree := by
  unfold survivor
  rw [h.tree .root (Ne.symm hroot)]
  by_cases hplace : place = .backup
  · obtain ⟨entry, hentry⟩ := Option.isSome_iff_exists.1 (hbackup hplace)
    simp [hentry]
  · rw [h.tree .backup (Ne.symm hplace)]

/-- What every part of the recovery keeps: the surviving entry, a root that is there, and the
object in memory. -/
structure Survives (before after : ShardHost) : Prop where
  survivor : survivor after.tree = survivor before.tree
  root : (before.tree .root).isSome → after.tree .root = before.tree .root
  shard : after.shard = before.shard
  collection : after.collection = before.collection

theorem Survives.rfl : Survives host host :=
  ⟨Eq.refl _, fun _ => Eq.refl _, Eq.refl _, Eq.refl _⟩

theorem Survives.trans {first second third : ShardHost} (h : Survives first second)
    (h' : Survives second third) : Survives first third :=
  ⟨h'.survivor.trans h.survivor,
    fun hroot => (h'.root (by rw [h.root hroot]; exact hroot)).trans (h.root hroot),
    h'.shard.trans h.shard, h'.collection.trans h.collection⟩

theorem SameBut.survives {before after : ShardHost} (h : SameBut place before after)
    (hroot : place ≠ .root) (hbackup : place = .backup → (before.tree .root).isSome) :
    Survives before after :=
  ⟨h.survivor_eq hroot hbackup, fun _ => h.tree .root (Ne.symm hroot), h.shard, h.collection⟩

/-- The first part of the recovery leaves the survivor as the root and no backup. -/
theorem wp_settle_backup :
    wp settleBackup
      (fun _ s' => Survives s.state s'.state ∧ s'.state.tree .root = survivor s.state.tree ∧
        s'.state.tree .backup = none ∧ s.Reaches s')
      (fun e s' => Survives s.state s'.state ∧ Struck s e s') s := by
  simp only [settleBackup, wp_bind, wp_get, wp_ite, wp_pure]
  refine ⟨fun hbackup => ⟨fun hroot => ?_, fun hroot => ?_⟩, fun hbackup => ?_⟩
  · refine wp_remove_workspace .backup (fun s' hsame hnone hreach => ?_) fun e s' hsame hstruck =>
      ⟨hsame.survives (by decide) fun _ => hroot, hstruck⟩
    have hsurvives := hsame.survives (by decide) fun _ => hroot
    refine ⟨hsurvives, ?_, hnone, hreach⟩
    obtain ⟨entry, hentry⟩ := Option.isSome_iff_exists.1 hroot
    rw [hsurvives.root hroot, survivor, hentry, Option.some_or]
  · -- there is no root: the backup becomes it, and both trees have the same survivor
    have hnoroot : s.state.tree .root = none := by simpa using hroot
    refine wp_rename hbackup hnoroot (fun s₁ hs₁ hreach₁ => ?_) fun e s' hs' hstruck =>
      ⟨hs' ▸ .rfl, hstruck⟩
    have hroot₁ : s₁.state.tree .root = s.state.tree .backup := by rw [hs₁]; rfl
    have hbackup₁ : s₁.state.tree .backup = none := by rw [hs₁]; rfl
    have hsurvives : Survives s.state s₁.state := by
      refine ⟨?_, fun h => absurd h (by simp [hnoroot]), by rw [hs₁], by rw [hs₁]⟩
      simp [survivor, hroot₁, hbackup₁, hnoroot]
    refine wp_touch (fun s₂ hs₂ hreach₂ => ?_) fun e s' hs' hstruck =>
      ⟨hs' ▸ hsurvives, struck_of_reaches hreach₁ hstruck⟩
    rw [hs₂]
    refine ⟨hsurvives, ?_, hbackup₁, reaches_trans hreach₁ hreach₂⟩
    rw [hroot₁, survivor, hnoroot, Option.none_or]
  · have hnone : s.state.tree .backup = none := by simpa using hbackup
    exact ⟨.rfl, by simp [survivor, hnone], hnone, reaches_refl s⟩

/-- Recovery leaves the survivor as the root and no workspace; where it stops, the survivor is
the same. -/
theorem wp_recover_workspaces :
    wp recoverSnapshotWorkspaces
      (fun _ s' => Survives s.state s'.state ∧ s'.state.tree .root = survivor s.state.tree ∧
        (∀ place, place ≠ .root → s'.state.tree place = none) ∧ s.Reaches s')
      (fun e s' => Survives s.state s'.state ∧ Struck s e s') s := by
  simp only [recoverSnapshotWorkspaces, wp_bind]
  refine wp_mono wp_settle_backup ?_ fun e s' h => h
  rintro _ s₁ ⟨hsurvives₁, hroot₁, hbackup₁, hreach₁⟩
  refine wp_remove_workspace .stage (fun s₂ hsame₂ hstage₂ hreach₂ => ?_) fun e s' hsame hstruck =>
    ⟨hsurvives₁.trans (hsame.survives (by decide) (by intros; contradiction)),
      struck_of_reaches hreach₁ hstruck⟩
  have hsurvives₂ := hsurvives₁.trans (hsame₂.survives (by decide) (by intros; contradiction))
  have hreach := reaches_trans hreach₁ hreach₂
  refine wp_remove_workspace .failed (fun s₃ hsame₃ hfailed₃ hreach₃ => ?_) fun e s' hsame hstruck =>
    ⟨hsurvives₂.trans (hsame.survives (by decide) (by intros; contradiction)),
      struck_of_reaches hreach hstruck⟩
  refine ⟨hsurvives₂.trans (hsame₃.survives (by decide) (by intros; contradiction)), ?_, ?_,
    reaches_trans hreach hreach₃⟩
  · rw [hsame₃.tree .root (by decide), hsame₂.tree .root (by decide), hroot₁]
  · intro place hplace
    cases place with
    | root => exact absurd rfl hplace
    | stage => rw [hsame₃.tree .stage (by decide), hstage₂]
    | backup => rw [hsame₃.tree .backup (by decide), hsame₂.tree .backup (by decide), hbackup₁]
    | failed => exact hfailed₃

end

section

variable [FloatRepr] {shardId dimension : Nat}

theorem reopen_eq (tree : SnapshotTree) :
    reopen shardId dimension tree =
      openDirectory shardId dimension ((survivor tree).getD (.intact .empty)) := by
  have hroot : (recoverSnapshotWorkspaces
      ⟨⟨tree, .unread shardId dimension, none⟩, none, none⟩).2.state.tree .root =
        survivor tree :=
    wp_final (P := fun s' => s'.state.tree .root = survivor tree)
      (wp_mono wp_recover_workspaces (fun _ _ h => h.2.1) fun _ _ h => absurd h.2 not_struck)
  simp only [reopen, hroot]

theorem open_directory_ok {disk : ShardDisk} {view : ShardView} :
    openDirectory shardId dimension (.intact disk) = .ok view ↔
      ∃ process, openShard shardId dimension ⟨disk, .unread shardId dimension, none⟩ =
          (.ok (), process) ∧
        view = ⟨process.shard, process.disk.collection⟩ := by
  simp only [openDirectory]
  generalize openShard shardId dimension ⟨disk, .unread shardId dimension, none⟩ = run
  obtain ⟨result, process⟩ := run
  cases result <;> simp [eq_comm]

/-- The files open as the view, whose points are the ones they hold. -/
structure Shows (shardId dimension : Nat) (disk : ShardDisk) (view : ShardView) : Prop where
  opens : openDirectory shardId dimension (.intact disk) = .ok view
  served : disk.collection = view.points

/-- A shard in step with its directory: the object is what constructing it again gives. -/
structure Live (shardId dimension : Nat) (host : ShardHost) (view : ShardView) : Prop where
  root : ∃ disk, host.tree .root = some (.intact disk) ∧ Shows shardId dimension disk view
  shard : host.shard = view.shard
  collection : host.collection = some view.points

/-- What the surviving entry shows. -/
def Holds (shardId dimension : Nat) (tree : SnapshotTree) (view : ShardView) : Prop :=
  ∃ disk, survivor tree = some (.intact disk) ∧ Shows shardId dimension disk view

theorem reopen_of_holds {tree : SnapshotTree} {view : ShardView}
    (h : Holds shardId dimension tree view) : reopen shardId dimension tree = .ok view := by
  obtain ⟨disk, hsurvivor, hshows⟩ := h
  rw [reopen_eq, hsurvivor]
  exact hshows.opens

theorem Live.holds {view : ShardView} (h : Live shardId dimension host view) :
    Holds shardId dimension host.tree view := by
  obtain ⟨disk, hroot, hshows⟩ := h.root
  exact ⟨disk, by rw [survivor, hroot, Option.some_or], hshows⟩

theorem Live.of_same {host host' : ShardHost} {view : ShardView}
    (h : Live shardId dimension host view) (hsame : SameBut place host host')
    (hplace : place ≠ .root) : Live shardId dimension host' view := by
  obtain ⟨disk, hroot, hshows⟩ := h.root
  exact ⟨⟨disk, (hsame.tree .root (Ne.symm hplace)).trans hroot, hshows⟩,
    hsame.shard.trans h.shard, hsame.collection.trans h.collection⟩

theorem Live.of_survives {host host' : ShardHost} {view : ShardView}
    (h : Live shardId dimension host view) (hsurvives : Survives host host') :
    Live shardId dimension host' view := by
  obtain ⟨disk, hroot, hshows⟩ := h.root
  exact ⟨⟨disk, (hsurvives.root (by simp [hroot])).trans hroot, hshows⟩,
    hsurvives.shard.trans h.shard, hsurvives.collection.trans h.collection⟩

omit [FloatRepr] in
/-- Applying an entry changes only the state of the object. -/
theorem wp_apply_entry_frame {entry : ReplicatedEntry} {journal : ReplicaJournal}
    {process : Process} (h : ∃ state, process.shard = ⟨shardId, dimension, state, journal⟩) :
    wp (applyEntry entry) (fun _ p => ∃ state, p.shard = ⟨shardId, dimension, state, journal⟩)
      (fun _ _ => True) process := by
  have hstep : ∀ (write : PointMap → Except Error PointMap) (p : Process),
      (∃ state, p.shard = ⟨shardId, dimension, state, journal⟩) →
      wp (collectionStep write) (fun _ p => ∃ state, p.shard = ⟨shardId, dimension, state, journal⟩)
        (fun _ _ => True) p := by
    intro write p hp
    simp only [collectionStep, wp_bind, wp_read, wp_lift, implies_true, and_true]
    intro points _
    exact wp_durable (fun _ _ => hp) fun _ => trivial
  simp only [applyEntry, apply, publishState, modifyShard, wp_bind, wp_read, wp_lift,
    wp_update, implies_true, and_true]
  intro _ _
  refine wp_mono (wp_for_each_inv _ _ (fun write _ p => hstep write p) h) ?_ fun _ _ _ => trivial
  rintro _ p ⟨state, hp⟩
  refine wp_durable (fun _ _ => ⟨{ state with appliedIndex := entry.index }, ?_⟩) fun _ => trivial
  simp only [hp]

/-- The object has its identity from the constructor and its journal from the file. -/
theorem Shows.frame {disk : ShardDisk} {view : ShardView}
    (h : Shows shardId dimension disk view) :
    ∃ journal, load disk.journal.lines = .ok journal ∧
      ∃ state, view.shard = ⟨shardId, dimension, state, journal⟩ := by
  have hwp : wp (openShard shardId dimension)
      (fun _ p => ∃ journal, load disk.journal.lines = .ok journal ∧
        ∃ state, p.shard = ⟨shardId, dimension, state, journal⟩)
      (fun _ _ => True) ⟨disk, .unread shardId dimension, none⟩ := by
    simp only [openShard, repairTornTail, replayCommitted, modifyShard, wp_bind, wp_read, wp_lift,
      wp_ite, wp_pure, wp_update, implies_true, and_true]
    intro journal hload
    have hreplay : ∀ (entries : List ReplicatedEntry) (p : Process),
        (∃ state, p.shard = ⟨shardId, dimension, state, journal⟩) →
        wp (forEach entries applyEntry)
          (fun _ p => ∃ journal, load disk.journal.lines = .ok journal ∧
            ∃ state, p.shard = ⟨shardId, dimension, state, journal⟩) (fun _ _ => True) p := by
      intro entries p hp
      exact wp_mono (wp_for_each_inv _ _ (fun _ _ _ => wp_apply_entry_frame) hp)
        (fun _ _ hp' => ⟨journal, hload, hp'⟩) fun _ _ _ => trivial
    exact ⟨fun _ => wp_durable (fun _ _ => hreplay _ _ ⟨_, rfl⟩) fun _ => trivial,
      fun _ => hreplay _ _ ⟨_, rfl⟩⟩
  obtain ⟨process, hrun, rfl⟩ := open_directory_ok.1 h.opens
  exact wp_ok (Q := fun _ p => ∃ journal, load disk.journal.lines = .ok journal ∧
    ∃ state, p.shard = ⟨shardId, dimension, state, journal⟩) hwp hrun

theorem Shows.journal {disk : ShardDisk} {view : ShardView}
    (h : Shows shardId dimension disk view) :
    load disk.journal.lines = .ok view.shard.journal := by
  obtain ⟨journal, hload, state, hshard⟩ := h.frame
  rw [hload, hshard]

theorem Shows.repaired {disk : ShardDisk} {view : ShardView}
    (h : Shows shardId dimension disk view) :
    Shows shardId dimension (repaired disk) view := by
  refine ⟨?_, h.served⟩
  obtain ⟨process, hrun, rfl⟩ := open_directory_ok.1 h.opens
  refine open_directory_ok.2 ⟨process, ?_, rfl⟩
  rw [← hrun]
  have hload := h.journal
  obtain ⟨state, ⟨lines, torn⟩, points⟩ := disk
  simp only [openShard, read_bind, Snapshot.repaired]
  rw [lift_ok_bind hload]
  cases torn <;> rfl

theorem shows_staged (call : SnapshotCall) (points : PointMap) :
    Shows shardId dimension
      ⟨call.state, ⟨[.snapshot call.state.appliedIndex], false⟩, points⟩
      ⟨⟨shardId, dimension, call.state,
        { empty with snapshotIndex := call.state.appliedIndex }⟩, points⟩ := by
  have hload : load [.snapshot call.state.appliedIndex] =
      .ok { empty with snapshotIndex := call.state.appliedIndex } := by
    simp [load, loadLines, loadRecord,
      empty, pure, Except.pure, bind, Except.bind]
  refine ⟨open_directory_ok.2 ⟨⟨⟨call.state, ⟨[.snapshot call.state.appliedIndex], false⟩, points⟩,
    ⟨shardId, dimension, call.state,
      { empty with snapshotIndex := call.state.appliedIndex }⟩, none⟩, ?_, rfl⟩, rfl⟩
  simp only [openShard, read_bind]
  rw [lift_ok_bind hload]
  rfl

/-- A replica that is up after a run of calls, crashes and restarts is in step with its directory,
when every commit is of an accepted mutation, at a marked index or above all marked ones. -/
theorem run_live (shardId dimension : Nat) (calls : List (ReplicaCall × Option Nat))
    (hmeets : Replica.Meets shardId dimension (CallMeets True) .initial calls)
    {disk : ShardDisk} {shard : ReplicaShard}
    (hrun : Replica.run shardId dimension .initial calls = ⟨disk, some shard⟩) :
    Live shard.shardId dimension
      ⟨Function.update (fun _ => none) .root (some (.intact disk)), shard, some disk.collection⟩
      ⟨shard, disk.collection⟩ := by
  have hserving : Serving True dimension disk shard := by
    have hinv := replica_inv_run hmeets
    rwa [hrun] at hinv
  -- every marked entry is applied, so a constructor has nothing to replay
  have hnil := committed_after_eq_nil (hserving.caught_up trivial)
  obtain ⟨⟨⟨hloads, -⟩, -⟩, rfl, hstate, -⟩ := hserving
  refine ⟨⟨disk, by simp, open_directory_ok.2 ⟨⟨repaired disk, shard, none⟩, ?_, rfl⟩, rfl⟩,
    rfl, rfl⟩
  obtain ⟨shardId, dimension, state, journal⟩ := shard
  obtain ⟨_, ⟨lines, torn⟩, points⟩ := disk
  cases hstate
  simp only [openShard, read_bind]
  rw [lift_ok_bind hloads]
  have hreplay : ∀ process, forEach (journal.committedAfter state.appliedIndex) applyEntry process =
      (.ok (), process) := fun _ => by rw [hnil]; rfl
  cases torn
  · exact hreplay _
  · exact hreplay _

/-! ## Staging -/

omit [FloatRepr] in
theorem run_steps_append (first second : List (PointMap → Except Error PointMap))
    (points : PointMap) :
    runSteps (first ++ second) points = (runSteps first points >>= runSteps second) := by
  induction first generalizing points with
  | nil => rfl
  | cons write first ih =>
      simp only [List.cons_append, runSteps]
      cases write points with
      | error e => rfl
      | ok next => exact ih next

/-- A shard in step with its directory beside a staged directory and no other workspace. -/
structure Staged (shardId dimension : Nat) (view : ShardView) (disk : ShardDisk)
    (host : ShardHost) : Prop where
  live : Live shardId dimension host view
  stage : host.tree .stage = some (.intact disk)
  backup : host.tree .backup = none
  failed : host.tree .failed = none

section

variable {s : Faulty ShardHost} {view : ShardView} {disk : ShardDisk}
  {Q : Unit → Faulty ShardHost → Prop} {E : Lib.Fault Error → Faulty ShardHost → Prop}

theorem wp_change_stage {change : ShardDisk → ShardDisk}
    (h : Staged shardId dimension view disk s.state)
    (hok : ∀ s' : Faulty ShardHost, Staged shardId dimension view (change disk) s'.state →
      s.Reaches s' → Q () s')
    (herr : ∀ e (s' : Faulty ShardHost), Live shardId dimension s'.state view → E e s') :
    wp (changeStage change) Q E s := by
  refine wp_change_tree (fun s' hs' hreach => ?_) fun e s' hs' _ => herr e s' (hs' ▸ h.live)
  have hsame : SameBut .stage s.state s'.state := by
    rw [hs']
    exact ⟨fun other hne => Function.update_of_ne hne _ _, rfl, rfl⟩
  refine hok s' ⟨h.live.of_same hsame (by decide), ?_, (hsame.tree _ (by decide)).trans h.backup,
    (hsame.tree _ (by decide)).trans h.failed⟩ hreach
  rw [hs']
  simp [h.stage, Directory.change]

theorem wp_touch_staged (h : Staged shardId dimension view disk s.state)
    (hok : ∀ s' : Faulty ShardHost, Staged shardId dimension view disk s'.state →
      s.Reaches s' → Q () s')
    (herr : ∀ e (s' : Faulty ShardHost), Live shardId dimension s'.state view → E e s') :
    wp touch Q E s :=
  wp_touch (fun s' hs' hreach => hok s' (hs' ▸ h) hreach) fun e s' hs' _ =>
    herr e s' (hs' ▸ h.live)

/-- The staged files are those of the requested state; where staging stops, the shard is as it
was. -/
theorem wp_stage_snapshot {call : SnapshotCall} {rowDimension : Nat}
    (h : Staged shardId dimension view .empty s.state) :
    wp (stageSnapshot rowDimension call)
      (fun _ s' => ∃ points, runSteps (stagedSteps rowDimension call.rows) ∅ = .ok points ∧
        Staged shardId dimension view
          ⟨call.state, ⟨[.snapshot call.state.appliedIndex], false⟩, points⟩ s'.state ∧
        s.Reaches s')
      (fun _ s' => Live shardId dimension s'.state view) s := by
  have hkept : ∀ (e : Lib.Fault Error) (s' : Faulty ShardHost),
      Live shardId dimension s'.state view → Live shardId dimension s'.state view :=
    fun _ _ hlive => hlive
  simp only [stageSnapshot, wp_bind]
  refine wp_touch_staged h (fun s₁ h₁ hreach₁ => ?_) hkept
  have hloop : wp (forEach (stagedSteps rowDimension call.rows) stageWrite)
      (fun _ s' => ∃ points, runSteps (stagedSteps rowDimension call.rows) ∅ = .ok points ∧
        Staged shardId dimension view { ShardDisk.empty with collection := points } s'.state ∧
        s.Reaches s')
      (fun _ s' => Live shardId dimension s'.state view) s₁ := by
    refine wp_for_each (fun before s' => ∃ points, runSteps before ∅ = .ok points ∧
      Staged shardId dimension view { ShardDisk.empty with collection := points } s'.state ∧
      s.Reaches s') _ ?_ ?_
    · rintro before write after - s₂ ⟨points, hpoints, h₂, hreach₂⟩
      simp only [stageWrite, wp_bind, wp_get, wp_of_except]
      refine ⟨fun next hnext => ?_, fun _ _ => h₂.live⟩
      refine wp_change_stage h₂ (fun s₃ h₃ hreach₃ => ?_) hkept
      refine ⟨next, ?_, h₃, reaches_trans hreach₂ hreach₃⟩
      have hread : (s₂.state.diskAt .stage).collection = points := by
        simp [ShardHost.diskAt, h₂.stage, Directory.disk]
      rw [hread] at hnext
      rw [run_steps_append, hpoints]
      simp [runSteps, hnext, bind, Except.bind, pure, Except.pure]
    · exact ⟨∅, rfl, h₁, hreach₁⟩
  refine wp_mono hloop ?_ hkept
  rintro _ s₂ ⟨points, hpoints, h₂, hreach₂⟩
  refine wp_touch_staged h₂ (fun s₃ h₃ hreach₃ => ?_) hkept
  refine wp_change_stage h₃ (fun s₄ h₄ hreach₄ => ?_) hkept
  refine wp_change_stage h₄ (fun s₅ h₅ hreach₅ => ?_) hkept
  refine wp_change_stage h₅ (fun s₆ h₆ hreach₆ => ?_) hkept
  refine wp_touch_staged h₆ (fun s₇ h₇ hreach₇ => ?_) hkept
  exact ⟨points, hpoints, h₇, reaches_trans hreach₂ (reaches_trans hreach₃ (reaches_trans hreach₄
    (reaches_trans hreach₅ (reaches_trans hreach₆ hreach₇))))⟩

end

/-! ## The swap -/

/-- The old directory is the backup; the new one may be the root already. -/
structure Swapping (shardId dimension : Nat) (view : ShardView) (disk : ShardDisk)
    (host : ShardHost) : Prop where
  root : host.tree .root = none ∨ host.tree .root = some (.intact disk)
  backup : ∃ old, host.tree .backup = some (.intact old) ∧ Shows shardId dimension old view
  failed : host.tree .failed = none
  shard : host.shard = view.shard

/-- How a call ends: with a possible view in the directory and, unless the process died, with
the object in step with it. -/
def Ends (shardId dimension : Nat) (possible : ShardView → Prop) (e : Lib.Fault Error)
    (host : ShardHost) : Prop :=
  ∃ view, possible view ∧ Holds shardId dimension host.tree view ∧
    (e ≠ .crash → Live shardId dimension host view)

section

variable {s : Faulty ShardHost} {view next : ShardView} {disk : ShardDisk}
  {possible : ShardView → Prop}

theorem Live.ends (h : Live shardId dimension host view) (hpossible : possible view)
    (e : Lib.Fault Error) :
    Ends shardId dimension possible e host :=
  ⟨view, hpossible, h.holds, fun _ => h⟩

theorem Swapping.ends (h : Swapping shardId dimension view disk host)
    (hnext : Shows shardId dimension disk next) (hview : possible view)
    (hpossible : possible next) : Ends shardId dimension possible .crash host := by
  obtain ⟨old, hbackup, hold⟩ := h.backup
  obtain hroot | hroot := h.root
  · exact ⟨view, hview, ⟨old, by rw [survivor, hroot, Option.none_or, hbackup], hold⟩, nofun⟩
  · exact ⟨next, hpossible, ⟨disk, by rw [survivor, hroot, Option.some_or], hnext⟩, nofun⟩

omit [FloatRepr] in
theorem wp_open_collection {Q : PointMap → Faulty ShardHost → Prop}
    {E : Lib.Fault Error → Faulty ShardHost → Prop}
    (hroot : s.state.tree .root = some (.intact disk))
    (hok : ∀ s' : Faulty ShardHost, s'.state = s.state → s.Reaches s' → Q disk.collection s')
    (herr : ∀ e (s' : Faulty ShardHost), s'.state = s.state → Struck s e s' → E e s') :
    wp openCollection Q E s := by
  simp only [openCollection, wp_bind, wp_get, wp_pure]
  refine wp_touch (fun s' hs' hreach => ?_) herr
  have hdisk : s'.state.diskAt .root = disk := by
    simp [ShardHost.diskAt, hs', hroot, Directory.disk]
  rw [hdisk]
  exact hok s' hs' hreach

/-- Opening the journal loads that of the root, and may cut off a torn line. -/
theorem wp_open_journal {journal : ReplicaJournal} {Q : ReplicaJournal → Faulty ShardHost → Prop}
    {E : Lib.Fault Error → Faulty ShardHost → Prop}
    (hroot : s.state.tree .root = some (.intact disk))
    (hload : load disk.journal.lines = .ok journal)
    (hok : ∀ (s' : Faulty ShardHost), SameBut .root s.state s'.state → s.Reaches s' →
      (s'.state.tree .root = some (.intact disk) ∨
        s'.state.tree .root = some (.intact (repaired disk))) → Q journal s')
    (herr : ∀ e (s' : Faulty ShardHost), s'.state = s.state → Struck s e s' → E e s') :
    wp openJournal Q E s := by
  simp only [openJournal, cutTornLine, wp_bind, wp_get, wp_of_except, wp_ite, wp_pure]
  refine wp_touch (fun s₁ hs₁ hreach₁ => ?_) herr
  have hdisk : s₁.state.diskAt .root = disk := by
    simp [ShardHost.diskAt, hs₁, hroot, Directory.disk]
  rw [hdisk, hload]
  refine ⟨fun loaded hloaded => ?_, (by intros; contradiction)⟩
  cases hloaded
  refine ⟨fun _ => ?_, fun _ => hok s₁ (hs₁ ▸ .rfl) hreach₁ (.inl (by rw [hs₁, hroot]))⟩
  refine wp_change_tree (fun s₂ hs₂ hreach₂ => ?_) fun e s' hs' hstruck =>
    herr e s' (hs'.trans hs₁) (struck_of_reaches hreach₁ hstruck)
  refine hok s₂ ?_ (reaches_trans hreach₁ hreach₂) (.inr ?_)
  · rw [hs₂, hs₁]
    exact ⟨fun other hne => Function.update_of_ne hne _ _, rfl, rfl⟩
  · rw [hs₂, hs₁]
    simp [hroot, Directory.change]

/-- The second rename puts the staged directory in place; where it stops, the swap can be
undone. -/
theorem wp_swap_stage (hnext : Shows shardId dimension disk next)
    (htorn : disk.journal.torn = false)
    (hswap : Swapping shardId dimension view disk s.state) (hroot : s.state.tree .root = none)
    (hstage : s.state.tree .stage = some (.intact disk)) :
    wp (swapStage next.shard.journal.snapshotIndex)
      (fun replacement s' => replacement = (next.points, next.shard.journal) ∧
        s'.state.tree .root = some (.intact disk) ∧ s'.state.shard = view.shard)
      (fun e s' => Swapping shardId dimension view disk s'.state ∧ Struck s e s') s := by
  simp only [swapStage, wp_bind, wp_ensure, wp_pure]
  refine wp_rename (by simp [hstage]) hroot (fun s₁ hs₁ hreach₁ => ?_) fun e s' hs' hstruck =>
    ⟨hs' ▸ hswap, hstruck⟩
  have hroot₁ : s₁.state.tree .root = some (.intact disk) := by rw [hs₁]; exact hstage
  have hswap₁ : Swapping shardId dimension view disk s₁.state := by
    rw [hs₁]
    exact ⟨.inr hstage, hswap.backup, hswap.failed, hswap.shard⟩
  refine wp_touch (fun s₂ hs₂ hreach₂ => ?_) fun e s' hs' hstruck =>
    ⟨hs' ▸ hswap₁, struck_of_reaches hreach₁ hstruck⟩
  have hreach := reaches_trans hreach₁ hreach₂
  refine wp_open_collection (hs₂ ▸ hroot₁) (fun s₃ hs₃ hreach₃ => ?_) fun e s' hs' hstruck =>
    ⟨hs' ▸ hs₂ ▸ hswap₁, struck_of_reaches hreach hstruck⟩
  have hreach' := reaches_trans hreach hreach₃
  have hs : s₃.state = s₁.state := hs₃.trans hs₂
  refine wp_open_journal (hs ▸ hroot₁) hnext.journal (fun s₄ hsame₄ hreach₄ hroot₄ => ?_)
    fun e s' hs' hstruck => ⟨hs' ▸ hs ▸ hswap₁, struck_of_reaches hreach' hstruck⟩
  have hrepaired : repaired disk = disk := by
    obtain ⟨state, ⟨lines, torn⟩, points⟩ := disk
    cases htorn
    rfl
  rw [hrepaired, or_self] at hroot₄
  refine ⟨fun _ => ⟨by rw [hnext.served], hroot₄, ?_⟩, fun hne => absurd rfl hne⟩
  rw [hsame₄.shard, hs, hswap₁.shard]

/-- Undoing the swap puts the old directory and the old object back, unless the process dies. -/
theorem wp_roll_back (hnext : Shows shardId dimension disk next) (hview : possible view)
    (hpossible : possible next) (hswap : Swapping shardId dimension view disk s.state)
    (hfail : s.failIn = none) (e : Lib.Fault Error) :
    wp (rollBack e) (fun _ _ => False)
      (fun e s' => Ends shardId dimension possible e s'.state) s := by
  -- a step has failed already, so only the end of the process can interrupt the handler
  have hends : ∀ {s₁ : Faulty ShardHost} {e' : Lib.Fault Error} {s' : Faulty ShardHost},
      s.Reaches s₁ → Struck s₁ e' s' → Holds shardId dimension s'.state.tree view →
      Ends shardId dimension possible e' s'.state := fun hreach hstruck hholds =>
    ⟨view, hview, hholds, fun hne => absurd (struck_crash hstruck (hreach.failure hfail)) hne⟩
  obtain ⟨old, hbackup, hold⟩ := hswap.backup
  simp only [rollBack, reopenCollection, wp_bind, wp_modify, wp_raise]
  have haside : wp setRootAside
      (fun _ s' => s'.state.tree .root = none ∧ s'.state.tree .backup = some (.intact old) ∧
        s'.state.shard = view.shard ∧ s.Reaches s')
      (fun e s' => Ends shardId dimension possible e s'.state) s := by
    simp only [setRootAside, wp_bind, wp_get, wp_ite, wp_pure]
    refine ⟨fun hsome => ?_, fun hnone => ⟨by simpa using hnone, hbackup, hswap.shard,
      reaches_refl s⟩⟩
    refine wp_rename hsome hswap.failed (fun s₁ hs₁ hreach₁ => ?_) fun e s' hs' hstruck => ?_
    · rw [hs₁]
      exact ⟨rfl, hbackup, hswap.shard, hreach₁⟩
    · rw [struck_crash hstruck hfail]
      exact hs' ▸ hswap.ends hnext hview hpossible
  refine wp_mono haside ?_ fun _ _ h => h
  rintro _ s₁ ⟨hroot₁, hbackup₁, hshard₁, hreach₁⟩
  have hholds₁ : Holds shardId dimension s₁.state.tree view :=
    ⟨old, by rw [survivor, hroot₁, Option.none_or, hbackup₁], hold⟩
  refine wp_rename (by simp [hbackup₁]) hroot₁ (fun s₂ hs₂ hreach₂ => ?_) fun e s' hs' hstruck =>
    hends hreach₁ hstruck (hs' ▸ hholds₁)
  have hroot₂ : s₂.state.tree .root = some (.intact old) := by rw [hs₂]; exact hbackup₁
  have hshard₂ : s₂.state.shard = view.shard := by rw [hs₂]; exact hshard₁
  have hholds₂ : Holds shardId dimension s₂.state.tree view :=
    ⟨old, by rw [survivor, hroot₂, Option.some_or], hold⟩
  have hreach₂ := reaches_trans hreach₁ hreach₂
  refine wp_touch (fun s₃ hs₃ hreach₃ => ?_) fun e s' hs' hstruck =>
    hends hreach₂ hstruck (hs' ▸ hholds₂)
  have hreach₃ := reaches_trans hreach₂ hreach₃
  refine wp_open_collection (hs₃ ▸ hroot₂) (fun s₄ hs₄ hreach₄ => ?_) fun e s' hs' hstruck =>
    hends hreach₃ hstruck (hs' ▸ hs₃ ▸ hholds₂)
  have hs₄ : s₄.state = s₂.state := hs₄.trans hs₃
  have hreach₄ := reaches_trans hreach₃ hreach₄
  refine wp_open_journal (by simpa only [hs₄] using hroot₂) hold.journal
    (fun s₅ hsame₅ hreach₅ hroot₅ => ?_) fun e s' hs' hstruck =>
      hends (reaches_trans hreach₄ ⟨id, id⟩) hstruck (by rw [hs', hs₄]; exact hholds₂)
  have hlive : Live shardId dimension
      { s₅.state with shard := { s₅.state.shard with journal := view.shard.journal } } view := by
    have hshard₅ : s₅.state.shard = view.shard := by rw [hsame₅.shard, hs₄, hshard₂]
    refine ⟨?_, by rw [hshard₅], by rw [hsame₅.collection, hold.served]⟩
    obtain hroot | hroot := hroot₅
    · exact ⟨old, hroot, hold⟩
    · exact ⟨repaired old, hroot, hold.repaired⟩
  refine wp_remove_workspace .failed (fun s₆ hsame₆ _ _ => ?_) fun e s' hsame _ =>
    (hlive.of_same hsame (by decide)).ends hview e
  exact (hlive.of_same hsame₆ (by decide)).ends hview e

/-- The view that a call with these points installs. -/
def installedView (shardId dimension : Nat) (call : SnapshotCall) (points : PointMap) :
    ShardView :=
  ⟨⟨shardId, dimension, call.state,
    { empty with snapshotIndex := call.state.appliedIndex }⟩, points⟩

/-- The first rename, with the handler that opens the collection again. -/
theorem wp_set_root_aside {old : ShardDisk} {Q : Unit → Faulty ShardHost → Prop}
    (hroot : s.state.tree .root = some (.intact old)) (hold : Shows shardId dimension old view)
    (hshard : s.state.shard = view.shard) (hbackup : s.state.tree .backup = none)
    (hview : possible view)
    (hok : ∀ s' : Faulty ShardHost, s'.state = { s.state with
        tree := Function.update (Function.update s.state.tree .backup (s.state.tree .root))
          .root none } → s.Reaches s' → Q () s') :
    wp (recovering (rename .root .backup) fun e => do
        reopenCollection
        raise e) Q (fun e s' => Ends shardId dimension possible e s'.state) s := by
  have hholds : Holds shardId dimension s.state.tree view :=
    ⟨old, by rw [survivor, hroot, Option.some_or], hold⟩
  rw [wp_recovering]
  refine wp_rename (by simp [hroot]) hbackup hok fun e s' hs' hstruck => ⟨fun _ => ?_, fun hne => ?_⟩
  · exact ⟨view, hview, hs' ▸ hholds, nofun⟩
  · -- a rename that failed leaves the root; the collection was closed and is opened again
    have hfail : s'.failIn = none := hstruck.elim (fun h => absurd h.1 hne) fun h => h.2.2
    simp only [reopenCollection, wp_bind, wp_modify, wp_raise]
    refine wp_open_collection (hs' ▸ hroot) (fun s₁ hs₁ _ => ?_) fun e₁ s₁ hs₁ hstruck₁ => ?_
    · refine Live.ends ⟨⟨old, ?_, hold⟩, ?_, ?_⟩ hview e
      · rw [hs₁, hs']
        exact hroot
      · rw [hs₁, hs']
        exact hshard
      · rw [hold.served]
    · refine ⟨view, hview, by rw [hs₁, hs']; exact hholds, fun hne₁ => ?_⟩
      exact absurd (struck_crash hstruck₁ hfail) hne₁

/-- The body of the `try` statement installs the staged view or leaves a possible one. -/
theorem wp_install_staged {call : SnapshotCall} {rowDimension : Nat}
    (h : Staged shardId dimension view .empty s.state) (hview : possible view)
    (hnext : ∀ points, runSteps (stagedSteps rowDimension call.rows) ∅ = .ok points →
      possible (installedView shardId dimension call points))
    (hids : view.shard.shardId = shardId ∧ view.shard.dimension = dimension) :
    wp (installStaged rowDimension call)
      (fun _ s' => ∃ points, runSteps (stagedSteps rowDimension call.rows) ∅ = .ok points ∧
        Live shardId dimension s'.state (installedView shardId dimension call points))
      (fun e s' => Ends shardId dimension possible e s'.state) s := by
  simp only [installStaged, wp_bind, wp_modify]
  refine wp_mono (wp_stage_snapshot h) ?_ fun e _ hlive => hlive.ends hview e
  rintro _ s₁ ⟨points, hpoints, h₁, -⟩
  have hshows : Shows shardId dimension _ (installedView shardId dimension call points) :=
    shows_staged call points
  obtain ⟨old, hroot, hold⟩ := h₁.live.root
  refine wp_set_root_aside (s := { s₁ with state := { s₁.state with collection := none } })
    hroot hold h₁.live.shard h₁.backup hview fun s₂ hs₂ _ => ?_
  have hswap₂ : Swapping shardId dimension view
      ⟨call.state, ⟨[.snapshot call.state.appliedIndex], false⟩, points⟩ s₂.state := by
    rw [hs₂]
    exact ⟨.inl rfl, ⟨old, hroot, hold⟩, h₁.failed, h₁.live.shard⟩
  rw [wp_recovering]
  refine wp_mono (wp_swap_stage hshows rfl hswap₂ (by rw [hs₂]; rfl) (by rw [hs₂]; exact h₁.stage))
    ?_ ?_
  · rintro _ s₃ ⟨rfl, hroot₃, hshard₃⟩
    have hlive : Live shardId dimension
        { s₃.state with
          collection := some (installedView shardId dimension call points).points
          shard := { s₃.state.shard with
            state := call.state
            journal := (installedView shardId dimension call points).shard.journal } }
        (installedView shardId dimension call points) := by
      refine ⟨⟨_, hroot₃, hshows⟩, ?_, rfl⟩
      simp [installedView, hshard₃, hids.1, hids.2]
    refine wp_remove_workspace .backup (fun s₄ hsame₄ _ _ => ?_) fun e s' hsame _ =>
      (hlive.of_same hsame (by decide)).ends (hnext points hpoints) e
    have hlive₄ := hlive.of_same hsame₄ (by decide)
    exact wp_touch (fun s₅ hs₅ _ => ⟨points, hpoints, hs₅ ▸ hlive₄⟩) fun e s' hs' _ =>
      hs' ▸ hlive₄.ends (hnext points hpoints) e
  · rintro e s₃ ⟨hswap₃, hstruck₃⟩
    refine ⟨fun _ => hswap₃.ends hshows hview (hnext points hpoints), fun hne => ?_⟩
    have hfail : s₃.failIn = none := hstruck₃.elim (fun h => absurd h.1 hne) fun h => h.2.2
    exact wp_mono (wp_roll_back hshows hview (hnext points hpoints) hswap₃ hfail e)
      (fun _ _ h => h.elim) fun _ _ h => h

end

/-- What a call on a shard in step with its directory may leave: what there was, or what the
request asks for. -/
def Possible (config : Json) (request : SnapshotRequest) (view after : ShardView) : Prop :=
  after = view ∨ requestedView view.shard config request = .ok after

/-- `install_snapshot`, whatever strikes: it returns with the requested state, or ends with the
old or the requested one. -/
theorem wp_install_snapshot (s : Faulty ShardHost) (config : Json) (request : SnapshotRequest)
    {view : ShardView} (h : Live shardId dimension s.state view) :
    wp (installSnapshot config request)
      (fun _ s' => ∃ next, requestedView view.shard config request = .ok next ∧
        Live shardId dimension s'.state next)
      (fun e s' => Ends shardId dimension (Possible config request view) e s'.state) s := by
  have hview : Possible config request view view := .inl rfl
  obtain ⟨disk, hroot, hshows⟩ := h.root
  obtain ⟨journal, -, state, hshard⟩ := hshows.frame
  simp only [installSnapshot, wp_bind, wp_get, wp_of_except, wp_always]
  refine ⟨fun call hcall => ?_, fun _ _ => h.ends hview _⟩
  rw [h.shard] at hcall
  have hnext : ∀ points, runSteps (stagedSteps s.state.shard.dimension call.rows) ∅ = .ok points →
      requestedView view.shard config request =
        .ok (installedView shardId dimension call points) := by
    intro points hpoints
    rw [h.shard] at hpoints
    simp only [requestedView, hcall, hpoints, bind, Except.bind, pure, Except.pure]
    rw [hshard]
    rfl
  refine wp_mono wp_recover_workspaces ?_ ?_
  · rintro _ s₁ ⟨hsurvives, -, hworkspaces, -⟩
    have hlive₁ := h.of_survives hsurvives
    refine wp_change_tree (fun s₂ hs₂ _ => ?_) fun e s' hs' _ => hs' ▸ hlive₁.ends hview e
    have hsame : SameBut .stage s₁.state s₂.state := by
      rw [hs₂]
      exact ⟨fun other hne => Function.update_of_ne hne _ _, rfl, rfl⟩
    have hstaged : Staged shardId dimension view .empty s₂.state := by
      refine ⟨hlive₁.of_same hsame (by decide), by rw [hs₂]; rfl, ?_, ?_⟩
      · rw [hsame.tree .backup (by decide), hworkspaces .backup (by decide)]
      · rw [hsame.tree .failed (by decide), hworkspaces .failed (by decide)]
    refine wp_mono (wp_install_staged hstaged hview (fun points hpoints =>
      Or.inr (hnext points hpoints)) ⟨by rw [hshard], by rw [hshard]⟩) ?_ ?_
    · rintro _ s₃ ⟨points, hpoints, hlive₃⟩
      refine wp_remove_workspace .stage (fun s₄ hsame₄ _ _ => ?_) fun e s' hsame' _ => ?_
      · exact ⟨_, hnext points hpoints, hlive₃.of_same hsame₄ (by decide)⟩
      · exact (hlive₃.of_same hsame' (by decide)).ends (.inr (hnext points hpoints)) e
    · intro e s₃ hends
      refine ⟨fun he => he ▸ hends, fun hne => ?_⟩
      obtain ⟨after, hpossible, -, hlive⟩ := hends
      refine wp_remove_workspace .stage (fun s₄ hsame₄ _ _ => ?_) fun e' s' hsame' _ => ?_
      · exact ((hlive hne).of_same hsame₄ (by decide)).ends hpossible e
      · exact ((hlive hne).of_same hsame' (by decide)).ends hpossible e'
  · rintro e s₁ ⟨hsurvives, -⟩
    exact (h.of_survives hsurvives).ends hview e

/-- Installing a snapshot is atomic. The object in memory and the directory agree before the
call; whatever the request, wherever the process dies and whichever step fails, constructing the
shard again gives the old state or the requested one, and an object that is still there is the
one that constructing it again would give. A call that returns has installed the request. -/
theorem install_snapshot_atomic {host : ShardHost} {view : ShardView}
    (h : Live shardId dimension host view) (config : Json) (request : SnapshotRequest)
    (crashIn failIn : Option Nat) :
    let outcome := installSnapshot config request ⟨host, crashIn, failIn⟩
    ∃ after, (after = view ∨ requestedView view.shard config request = .ok after) ∧
      reopen shardId dimension outcome.2.state.tree = .ok after ∧
      (outcome.1 ≠ .error .crash →
        outcome.2.state.shard = after.shard ∧
          outcome.2.state.collection = some after.points) ∧
      (outcome.1 = .ok () → requestedView view.shard config request = .ok after) := by
  intro outcome
  have hwp := wp_install_snapshot ⟨host, crashIn, failIn⟩ config request h
  cases hrun : outcome with
  | mk result s' =>
      cases result with
      | ok u =>
          obtain ⟨next, hnext, hlive⟩ := wp_ok hwp hrun
          exact ⟨next, .inr hnext, reopen_of_holds hlive.holds,
            fun _ => ⟨hlive.shard, hlive.collection⟩, fun _ => hnext⟩
      | error e =>
          obtain ⟨after, hpossible, hholds, hlive⟩ := wp_error hwp hrun
          refine ⟨after, hpossible, reopen_of_holds hholds, fun hne => ?_, nofun⟩
          have hstill := hlive fun he => hne (by rw [he])
          exact ⟨hstill.shard, hstill.collection⟩

end

/-- An empty snapshot for term and epoch 1, with its checksum. -/
def emptySnapshot : SnapshotRequest where
  rows := .arr []
  config := .obj []
  index := .int 0
  term := .int 1
  placementEpoch := .int 1
  checksum := .int (@snapshotChecksum sampleFloatRepr (.arr []) (.obj []) 0)

/-- A shard of dimension 1 in a directory of its own. -/
def freshHost : ShardHost :=
  ⟨fun place => if place = .root then some (.intact .empty) else none, .unread 0 1, some ∅⟩

/-- The files of a shard that has committed a point. -/
def filledDisk : ShardDisk :=
  (sampleReplica [(.reopen, none), (.configure 1 1, none), (.commit (sampleEntry 1), none)]).disk

/-- The row of another point. -/
def sampleRows : Json :=
  .arr [.obj [("id", .int 2), ("sequence", .int 1), ("vector", .arr [.int 1]),
    ("fields", .arr [sampleItem]), ("sparse", .arr [sampleTerm])]]

def sampleSnapshot : SnapshotRequest :=
  { emptySnapshot with
    rows := sampleRows
    index := .int 2
    checksum := .int (@snapshotChecksum sampleFloatRepr sampleRows (.obj []) 2) }

theorem ok_of_to_option_map {ε α β : Type} {x : Except ε α} {f : α → β} {b : β}
    (h : x.toOption.map f = some b) : ∃ a, x = .ok a ∧ f a = b := by
  cases x with
  | error e => simp [Except.toOption] at h
  | ok a => exact ⟨a, rfl, by simpa [Except.toOption] using h⟩

/-- The first rename has happened and the second one fails. -/
theorem install_snapshot_atomic_filled : ∃ (host : ShardHost) (view after : ShardView),
    @Live sampleFloatRepr 0 1 host view ∧ view.points.size = 1 ∧
      (after = view ∨
        @requestedView sampleFloatRepr view.shard (.obj []) sampleSnapshot = .ok after) ∧
      @reopen sampleFloatRepr 0 1 (@installSnapshot sampleFloatRepr (.obj []) sampleSnapshot
        ⟨host, none, some 13⟩).2.state.tree = .ok after := by
  let := sampleFloatRepr
  have hopens : (openDirectory 0 1 (.intact filledDisk)).toOption.map (·.points.toList) =
      some filledDisk.collection.toList := by decide +kernel
  obtain ⟨view, hview, hpoints⟩ := ok_of_to_option_map hopens
  have hserved : filledDisk.collection = view.points :=
    Std.ExtTreeMap.ext_toList (.of_eq hpoints.symm)
  have hlive : Live 0 1 ⟨fun place => if place = .root then some (.intact filledDisk) else none,
      view.shard, some view.points⟩ view := ⟨⟨_, rfl, hview, hserved⟩, rfl, rfl⟩
  obtain ⟨after, hpossible, hreopen, -⟩ :=
    install_snapshot_atomic hlive (.obj []) sampleSnapshot none (some 13)
  have hsize : filledDisk.collection.size = 1 := by decide +kernel
  exact ⟨_, view, after, hlive, hserved ▸ hsize, hpossible, hreopen⟩

/-- The host after a `configure` whose state file was not written: an exception of that write
leaves the files and the object as the end of the process would. -/
def unpublishedHost : ShardHost :=
  let process := (configure 1 1 ⟨.empty, .unread 0 1, some 0⟩).2
  ⟨fun place => if place = .root then some (.intact process.disk) else none, process.shard,
    some process.disk.collection⟩

/-- A shard that is ahead of its directory stays so. After a `configure` that could not be
published the object has term 1 and the directory term 0. A crash before the second rename of an
install, or a failure of it, puts the directory back: constructing the shard again gives neither
the old object nor the requested state, and not the object in memory either. -/
theorem unpublished_epoch_not_reopened :
    let crashed := @installSnapshot sampleFloatRepr (.obj []) emptySnapshot
      ⟨unpublishedHost, some 8, none⟩
    let failed := @installSnapshot sampleFloatRepr (.obj []) emptySnapshot
      ⟨unpublishedHost, none, some 8⟩
    crashed.1 = .error .crash ∧ failed.1 = .error .failure ∧
      (∃ after, @reopen sampleFloatRepr 0 1 crashed.2.state.tree = .ok after ∧
        after.shard ≠ unpublishedHost.shard ∧
        @requestedView sampleFloatRepr unpublishedHost.shard (.obj []) emptySnapshot ≠
          .ok after) ∧
      ∃ after, @reopen sampleFloatRepr 0 1 failed.2.state.tree = .ok after ∧
        failed.2.state.shard ≠ after.shard := by
  intro crashed failed
  have hcrashed : (@reopen sampleFloatRepr 0 1 crashed.2.state.tree).toOption.map
      (·.shard.state.term) = some 0 := by decide +kernel
  have hfailed : (@reopen sampleFloatRepr 0 1 failed.2.state.tree).toOption.map
      (·.shard.state.term) = some 0 := by decide +kernel
  have hrequested : (@requestedView sampleFloatRepr unpublishedHost.shard (.obj [])
      emptySnapshot).toOption.map (·.shard.state.term) = some 1 := by decide +kernel
  have hterm : unpublishedHost.shard.state.term = 1 ∧ failed.2.state.shard.state.term = 1 := by
    decide +kernel
  refine ⟨by decide +kernel, by decide +kernel, ?_, ?_⟩
  · obtain ⟨after, hafter, hzero⟩ := ok_of_to_option_map hcrashed
    refine ⟨after, hafter, fun heq => ?_, fun heq => ?_⟩
    · rw [heq, hterm.1] at hzero
      exact absurd hzero (by decide)
    · rw [heq] at hrequested
      exact absurd (hzero.symm.trans (Option.some.inj hrequested)) (by decide)
  · obtain ⟨after, hafter, hzero⟩ := ok_of_to_option_map hfailed
    refine ⟨after, hafter, fun heq => ?_⟩
    rw [← heq, hterm.2] at hzero
    exact absurd hzero (by decide)

end Akasha.Distributed.Snapshot

import Akasha.Storage.StoreRecovery

/-!
# What a store keeps of its directory

`Kept` is what holds of the directory of a collection at every step of every program that writes it,
also where the program is halted: whatever a crash may leave holds a history, which lacks at most
batches behind a count that is sure. `Kept.survives` is the main theorem. While a store is open and
no program runs the directory is `Settled`, and `Opened` while recovery repairs it; each change of a
file leads from there to `Kept`, and to `Settled` again once it is durable.
-/

namespace Akasha.Storage

open Lib Volume

/-- The files that say what a collection holds. -/
def authorityFiles : List String :=
  [collectionFile, manifestFile, walFile, sparseWalFile]

/-- A content that the manifest may have is a checkpoint whose segments are there to stay. -/
inductive CheckpointAt (c : Collection) (batches : List (List PointMutation)) (volume : Volume) :
    Nat → Option ManifestFile.Manifest → Option (List UInt8) → Prop where
  | absent : CheckpointAt c batches volume 0 none none
  | present {covered : Nat} {manifest : ManifestFile.Manifest} {bytes : List UInt8}
      (hcommitted : Committed c.catalog (batches.take covered) volume.files manifest bytes)
      (hfixed : ∀ segment ∈ manifest.segments, ∃ content,
        volume.Fixed segment.name (some content)) :
      CheckpointAt c batches volume covered (some manifest) (some bytes)

/-- Whatever is left of a log goes on behind a checkpoint, at least as far as what is sure. -/
def LogEntry (c : Collection) (batches : List (List PointMutation)) (sure covered : Nat)
    (entry : Option StoredFile) : Prop :=
  ∀ content, MayLeave entry content →
    ∃ count, sure ≤ count ∧ LogAt c.catalog batches covered count (content.getD [])

/-- A manifest that may be left, and the log behind it. -/
def ManifestEntry (c : Collection) (batches : List (List PointMutation)) (sure : Nat)
    (volume : Volume) (entry : Option StoredFile) : Prop :=
  ∃ covered manifest content, entry = content.map .durable ∧
    CheckpointAt c batches volume covered manifest content ∧
    volume.Always (LogEntry c batches sure covered) walFile

/-- A directory that keeps a history, of which a crash can take no batch before `sure`. -/
structure Kept (c : Collection) (batches : List (List PointMutation)) (sure : Nat)
    (volume : Volume) : Prop where
  history : ∃ points last, History c.catalog batches points last ∧ last < 2 ^ 64
  identity : volume.Always (fun entry => entry = none ∨ entry = some (.durable c.identity))
    collectionFile
  unborn : volume.Fixed collectionFile (some c.identity) ∨
    batches = [] ∧ volume.Fixed manifestFile none ∧ volume.Fixed walFile none
  sparse : volume.Always (fun entry => entry = none ∨ entry = some (.durable [])) sparseWalFile
  manifests : volume.Always (ManifestEntry c batches sure volume) manifestFile
  current : ∃ covered manifest, CheckpointAt c batches volume covered manifest
      (volume.files manifestFile) ∧
    LogAt c.catalog batches covered batches.length (walSource volume.files) ∧
    volume.Always (LogEntry c batches sure covered) walFile

/-- A directory while it is opened. -/
structure Opened (c : Collection) (batches : List (List PointMutation)) (sure covered : Nat)
    (manifest : Option ManifestFile.Manifest) (body tail : List UInt8) (volume : Volume) :
    Prop where
  history : ∃ points last, History c.catalog batches points last ∧ last < 2 ^ 64
  sparse : volume.Always (fun entry => entry = none ∨ entry = some (.durable [])) sparseWalFile
  checkpoint : ∃ content, volume.Fixed manifestFile content ∧
    CheckpointAt c batches volume covered manifest content
  whole : WholeLog c.catalog batches covered batches.length body
  torn : Torn c.catalog tail
  source : walSource volume.files = body ++ tail
  logs : volume.Always (LogEntry c batches sure covered) walFile
  log_since : volume.since walFile = []

/-- The directory of an open store. -/
structure Settled (c : Collection) (batches : List (List PointMutation)) (sure covered : Nat)
    (manifest : Option ManifestFile.Manifest) (volume : Volume) : Prop where
  history : ∃ points last, History c.catalog batches points last ∧ last < 2 ^ 64
  identity : volume.Fixed collectionFile (some c.identity)
  sparse : volume.Always (fun entry => entry = none ∨ entry = some (.durable [])) sparseWalFile
  checkpoint : ∃ content, volume.Fixed manifestFile content ∧
    CheckpointAt c batches volume covered manifest content
  log : ∃ file, volume.now walFile = some file ∧
    WholeLog c.catalog batches covered batches.length file.bytes
  logs : volume.Always (LogEntry c batches sure covered) walFile
  log_since : volume.since walFile = []

section

variable {c : Collection} {batches : List (List PointMutation)} {sure covered : Nat}
  {manifest : Option ManifestFile.Manifest} {volume volume' : Volume} {names : List String}
  {content : Option (List UInt8)} {body tail : List UInt8}

theorem CheckpointAt.extend (h : CheckpointAt c batches volume covered manifest content)
    (hcovered : covered ≤ batches.length) (more : List (List PointMutation)) :
    CheckpointAt c (batches ++ more) volume covered manifest content := by
  cases h with
  | absent => exact .absent
  | present hcommitted hfixed =>
      refine .present ?_ hfixed
      rw [List.take_append_of_le_length hcovered]
      exact hcommitted

/-- A checkpoint depends on the files of its segments only. -/
theorem CheckpointAt.congr (h : CheckpointAt c batches volume covered manifest content)
    {batches' : List (List PointMutation)} (htake : batches'.take covered = batches.take covered)
    (hsame : ∀ named, manifest = some named → ∀ segment ∈ named.segments,
      PointName segment.name → ∀ content, volume.Fixed segment.name (some content) →
        volume'.Fixed segment.name (some content)) :
    CheckpointAt c batches' volume' covered manifest content := by
  cases h with
  | absent => exact .absent
  | @present covered manifest bytes hcommitted hfixed =>
      have hthere : ∀ segment ∈ manifest.segments, ∃ content,
          volume.Fixed segment.name (some content) ∧ volume'.Fixed segment.name (some content) := by
        intro segment hsegment
        obtain ⟨content, hcontent⟩ := hfixed segment hsegment
        have hname := (hcommitted.checkpointed.plain segment hsegment).1
        exact ⟨content, hcontent, hsame manifest rfl segment hsegment hname content hcontent⟩
      refine .present ⟨hcommitted.constructed, hcommitted.encoded, ?_, ?_⟩ ?_
      · rw [htake]
        refine hcommitted.checkpointed.congr fun segment hsegment => ?_
        obtain ⟨content, hbefore, hafter⟩ := hthere segment hsegment
        rw [hafter.files, hbefore.files]
      · intro segment hsegment
        obtain ⟨content, -, hafter⟩ := hthere segment hsegment
        rw [hafter.files]
        rfl
      · intro segment hsegment
        obtain ⟨content, -, hafter⟩ := hthere segment hsegment
        exact ⟨content, hafter⟩

theorem CheckpointAt.holds (h : CheckpointAt c batches volume covered manifest content)
    (hcontent : volume.files manifestFile = content) :
    HoldsCheckpoint c batches volume.files covered manifest := by
  cases h with
  | absent => exact .absent hcontent
  | present hcommitted => exact .present hcontent hcommitted

theorem Kept.identity_files (h : Kept c batches sure volume) :
    volume.files collectionFile = some c.identity ∨ volume.files collectionFile = none ∧
      volume.files manifestFile = none ∧ volume.files walFile = none ∧ batches = [] := by
  rcases h.unborn with hborn | ⟨hnil, hmanifest, hlog⟩
  · exact .inl hborn.files
  · rcases h.identity.now with hnone | hsome
    · refine .inr ⟨?_, hmanifest.files, hlog.files, hnil⟩
      rw [files, hnone]
      rfl
    · refine .inl ?_
      rw [files, hsome]
      rfl

theorem Kept.sparse_files (h : Kept c batches sure volume) :
    volume.files sparseWalFile = none ∨ volume.files sparseWalFile = some [] := by
  rcases h.sparse.now with hnone | hsome
  · refine .inl ?_
    rw [files, hnone]
    rfl
  · refine .inr ?_
    rw [files, hsome]
    rfl

theorem Kept.sure_le (h : Kept c batches sure volume) : sure ≤ batches.length := by
  obtain ⟨covered, manifest, content, -, -, hlogs⟩ := h.manifests.now
  have hnow : MayLeave (volume.now walFile) (volume.files walFile) := by
    unfold files
    cases volume.now walFile with
    | none => rfl
    | some file => exact ⟨file.bytes, List.mem_cons_self, rfl⟩
  obtain ⟨count, hle, hlog⟩ := hlogs.now _ hnow
  exact hle.trans hlog.count_le

/-! ## Crashes -/

/-- A crash leaves a directory that keeps the history up to a count that is at least what was
sure. -/
theorem Kept.survives (h : Kept c batches sure volume) {files : Files}
    (hsurvives : volume.Survives files) :
    ∃ count, sure ≤ count ∧ count ≤ batches.length ∧
      Kept c (batches.take count) count (.ofFiles files) := by
  obtain ⟨entry, hentry, hleave⟩ := hsurvives manifestFile
  obtain ⟨covered, manifest, content, rfl, hcheckpoint, hlogs⟩ := h.manifests entry hentry
  have hmanifest : files manifestFile = content := may_leave_durable.1 hleave
  obtain ⟨entry, hentry, hleave⟩ := hsurvives walFile
  obtain ⟨count, hsure, hlog⟩ := hlogs entry hentry (files walFile) hleave
  have hcount := hlog.count_le
  have hlength : (batches.take count).length = count := by
    rw [List.length_take, Nat.min_eq_left hcount]
  have hafter : CheckpointAt c (batches.take count) (.ofFiles files) covered manifest content := by
    refine hcheckpoint.congr ?_ fun _ _ segment _ _ content hcontent => ?_
    · rw [List.take_take, Nat.min_eq_left hlog.covered_le]
    · rw [← hsurvives.fixed hcontent]
      exact fixed_of_files files segment.name
  have hlog' : LogAt c.catalog (batches.take count) covered count ((files walFile).getD []) :=
    hlog.take le_rfl
  obtain ⟨points, last, hhistory, hlast⟩ := h.history
  obtain ⟨points', last', hhistory'⟩ := hhistory.take count
  have hle : last' ≤ last := by
    rw [hhistory.last_eq, hhistory'.last_eq]
    exact sequence_after_take_le c.catalog batches count
  have hlogs' : (ofFiles files).Always (LogEntry c (batches.take count) count covered)
      walFile := by
    refine (fixed_of_files files walFile).mono fun entry heq left hleft => ?_
    rw [heq] at hleft
    rw [may_leave_durable.1 hleft]
    exact ⟨count, le_rfl, hlog'⟩
  have hidentity : files collectionFile = none ∨ files collectionFile = some c.identity := by
    obtain ⟨entry, hentry, hleave⟩ := hsurvives collectionFile
    rcases h.identity entry hentry with rfl | rfl
    · exact .inl hleave
    · have hleft : MayLeave ((some c.identity).map .durable) (files collectionFile) := hleave
      exact .inr (may_leave_durable.1 hleft)
  refine ⟨count, hsure, hcount, ⟨points', last', hhistory', hle.trans_lt hlast⟩, ?_, ?_, ?_, ?_, ?_⟩
  · refine (fixed_of_files files collectionFile).mono fun entry heq => ?_
    rcases hidentity with hnone | hsome
    · exact .inl (by rw [heq, hnone]; rfl)
    · exact .inr (by rw [heq, hsome]; rfl)
  · rcases h.unborn with hborn | ⟨rfl, hnone, hwal⟩
    · refine .inl ?_
      rw [← hsurvives.fixed hborn]
      exact fixed_of_files files collectionFile
    · refine .inr ⟨List.take_nil, ?_, ?_⟩
      · rw [← hsurvives.fixed hnone]
        exact fixed_of_files files manifestFile
      · rw [← hsurvives.fixed hwal]
        exact fixed_of_files files walFile
  · refine (fixed_of_files files sparseWalFile).mono fun entry heq => ?_
    obtain ⟨before, hbefore, hleave⟩ := hsurvives sparseWalFile
    rcases h.sparse before hbefore with rfl | rfl
    · have hnone : files sparseWalFile = none := hleave
      exact .inl (by rw [heq, hnone]; rfl)
    · have hleft : MayLeave ((some []).map .durable) (files sparseWalFile) := hleave
      exact .inr (by rw [heq, may_leave_durable.1 hleft]; rfl)
  · refine (fixed_of_files files manifestFile).mono fun entry heq => ?_
    exact ⟨covered, manifest, content, by rw [heq, hmanifest], hafter, hlogs'⟩
  · refine ⟨covered, manifest, ?_, ?_, hlogs'⟩
    · rw [files_of_files, hmanifest]
      exact hafter
    · rw [files_of_files, hlength]
      exact hlog'

/-! ## Changes of other files -/

/-- A segment of a manifest that may be left has this name. -/
def Mentioned (c : Collection) (volume : Volume) (name : String) : Prop :=
  ∃ manifest bytes, some (StoredFile.durable bytes) ∈ volume.entries manifestFile ∧
    ManifestFile.Constructed manifest ∧ manifestBytes manifest = .ok bytes ∧
    manifest.dimension = denseDimension c.catalog ∧
    ∃ segment ∈ manifest.segments, segment.name = name

/-- Names that do not matter to what a directory holds. -/
structure Free (c : Collection) (names : List String) (volume : Volume) : Prop where
  authority : ∀ name ∈ authorityFiles, name ∉ names
  segments : ∀ name ∈ names, ¬ Mentioned c volume name

variable {bytes : List UInt8}

theorem manifest_bytes_unique {first second : ManifestFile.Manifest}
    (hfirst : ManifestFile.Constructed first) (hsecond : ManifestFile.Constructed second)
    (hdimension : first.dimension = denseDimension c.catalog)
    (hdimension' : second.dimension = denseDimension c.catalog)
    (h : manifestBytes first = .ok bytes) (h' : manifestBytes second = .ok bytes) :
    first = second := by
  have hbound := (dense_dimension_bounds c.catalog).2
  obtain ⟨-, -, hdecode⟩ := manifest_bytes_decoded hfirst (by omega) h
  obtain ⟨-, -, hdecode'⟩ := manifest_bytes_decoded hsecond (by omega) h'
  rw [hdimension] at hdecode
  rw [hdimension', hdecode] at hdecode'
  exact Except.ok.inj hdecode'

theorem CheckpointAt.quiet (h : CheckpointAt c batches volume covered manifest content)
    (hentry : content.map .durable ∈ volume.entries manifestFile)
    (hquiet : Volume.Quiet names volume volume')
    (hsegments : ∀ name ∈ names, ¬ Mentioned c volume name) :
    CheckpointAt c batches volume' covered manifest content := by
  refine h.congr rfl fun named hnamed segment hsegment _ bytes hbytes => ?_
  refine hquiet.fixed (fun hmem => ?_) hbytes
  cases h with
  | absent => cases hnamed
  | present hcommitted =>
      obtain rfl := Option.some.inj hnamed
      exact hsegments _ hmem ⟨_, _, hentry, hcommitted.constructed, hcommitted.encoded,
        hcommitted.checkpointed.dimension_eq, segment, hsegment, rfl⟩

theorem mem_authority : collectionFile ∈ authorityFiles ∧ manifestFile ∈ authorityFiles ∧
    walFile ∈ authorityFiles ∧ sparseWalFile ∈ authorityFiles := by
  simp [authorityFiles]

theorem Kept.manifest_now (h : Kept c batches sure volume) :
    (volume.files manifestFile).map .durable = volume.now manifestFile := by
  obtain ⟨covered, manifest, content, hnow, -⟩ := h.manifests.now
  unfold files
  rw [hnow]
  cases content <;> rfl

/-- Changes of names that do not matter keep the history. -/
theorem Kept.quiet (h : Kept c batches sure volume) (hquiet : Volume.Quiet names volume volume')
    (hfree : Free c names volume) : Kept c batches sure volume' := by
  obtain ⟨hcollection, hmanifest, hwal, hsparse⟩ := mem_authority
  have hmanifest := hfree.authority _ hmanifest
  have hwal := hfree.authority _ hwal
  refine ⟨h.history, hquiet.always (hfree.authority _ hcollection) h.identity, ?_,
    hquiet.always (hfree.authority _ hsparse) h.sparse, ?_, ?_⟩
  · rcases h.unborn with hborn | ⟨hnil, hnone, hempty⟩
    · exact .inl (hquiet.fixed (hfree.authority _ hcollection) hborn)
    · exact .inr ⟨hnil, hquiet.fixed hmanifest hnone, hquiet.fixed hwal hempty⟩
  · intro entry hentry
    have hbefore := hquiet.entries hmanifest entry hentry
    obtain ⟨covered, manifest, content, rfl, hcheckpoint, hlogs⟩ := h.manifests entry hbefore
    exact ⟨covered, manifest, content, rfl, hcheckpoint.quiet hbefore hquiet hfree.segments,
      hquiet.always hwal hlogs⟩
  · obtain ⟨covered, manifest, hcheckpoint, hlog, hlogs⟩ := h.current
    refine ⟨covered, manifest, ?_, ?_, hquiet.always hwal hlogs⟩
    · rw [hquiet.files hmanifest]
      refine hcheckpoint.quiet ?_ hquiet hfree.segments
      rw [h.manifest_now]
      exact List.mem_cons_self
    · rw [walSource, hquiet.files hwal]
      exact hlog

/-- A mentioned name is one of a segment of the manifest that is there. -/
theorem CheckpointAt.mentions (h : CheckpointAt c batches volume covered manifest content)
    {other : ManifestFile.Manifest}
    (hentry : some (StoredFile.durable bytes) = content.map .durable)
    (hconstructed : ManifestFile.Constructed other) (hencode : manifestBytes other = .ok bytes)
    (hdimension : other.dimension = denseDimension c.catalog) :
    manifest = some other ∧ ∀ segment ∈ other.segments, PointName segment.name ∧
      ∃ content, volume.Fixed segment.name (some content) := by
  cases h with
  | absent => cases hentry
  | present hcommitted hfixed =>
      obtain rfl := congrArg StoredFile.bytes (Option.some.inj hentry)
      obtain rfl := manifest_bytes_unique hconstructed hcommitted.constructed hdimension
        hcommitted.checkpointed.dimension_eq hencode hcommitted.encoded
      exact ⟨rfl, fun segment hsegment =>
        ⟨(hcommitted.checkpointed.plain segment hsegment).1, hfixed segment hsegment⟩⟩

/-- A file that may be a segment of a manifest has the name of one, and its content is there to
stay. -/
theorem Kept.mentioned (h : Kept c batches sure volume) {name : String}
    (hmentioned : Mentioned c volume name) :
    PointName name ∧ ∃ content, volume.Fixed name (some content) := by
  obtain ⟨other, bytes, hentry, hconstructed, hencode, hdimension, segment, hsegment, rfl⟩ :=
    hmentioned
  obtain ⟨covered, found, content, heq, hcheckpoint, -⟩ := h.manifests _ hentry
  exact (hcheckpoint.mentions heq hconstructed hencode hdimension).2 segment hsegment

theorem Kept.free (h : Kept c batches sure volume)
    (hauthority : ∀ name ∈ authorityFiles, name ∉ names)
    (hnames : ∀ name ∈ names, PointName name → volume.now name = none) : Free c names volume := by
  refine ⟨hauthority, fun name hname hmentioned => ?_⟩
  obtain ⟨hpoint, content, hfixed⟩ := h.mentioned hmentioned
  have hnow := hfixed.now
  rw [hnames name hname hpoint] at hnow
  cases hnow

theorem Kept.plain (h : Kept c batches sure volume) (hquiet : Volume.Quiet names volume volume')
    (hauthority : ∀ name ∈ authorityFiles, name ∉ names)
    (hnames : ∀ name ∈ names, ¬ PointName name) : Kept c batches sure volume' :=
  h.quiet hquiet (h.free hauthority fun name hname hpoint => absurd hpoint (hnames name hname))

/-! ## An open store -/

variable {entry : Option StoredFile}

theorem LogEntry.weaken {sure' : Nat} (h : LogEntry c batches sure covered entry)
    (hle : sure' ≤ sure) :
    LogEntry c batches sure' covered entry := by
  intro content hcontent
  obtain ⟨count, hcount, hlog⟩ := h content hcontent
  exact ⟨count, hle.trans hcount, hlog⟩

theorem Kept.weaken {sure' : Nat} (h : Kept c batches sure volume) (hle : sure' ≤ sure) :
    Kept c batches sure' volume := by
  obtain ⟨covered, manifest, hcheckpoint, hlog, hlogs⟩ := h.current
  refine ⟨h.history, h.identity, h.unborn, h.sparse, h.manifests.mono fun entry hentry => ?_,
    covered, manifest, hcheckpoint, hlog, hlogs.mono fun entry hentry => hentry.weaken hle⟩
  obtain ⟨covered, manifest, content, heq, hcheckpoint, hlogs⟩ := hentry
  exact ⟨covered, manifest, content, heq, hcheckpoint,
    hlogs.mono fun entry hentry => hentry.weaken hle⟩

theorem LogEntry.later (h : LogEntry c batches sure covered entry)
    (hcovered : covered ≤ batches.length) :
    LogEntry c batches batches.length batches.length entry := by
  intro content hcontent
  obtain ⟨count, -, hlog⟩ := h content hcontent
  exact ⟨_, le_max_left _ _, hlog.later hcovered le_rfl⟩

theorem log_entry_durable {count : Nat} (hsure : sure ≤ count)
    (h : LogAt c.catalog batches covered count bytes) :
    LogEntry c batches sure covered (some (.durable bytes)) := by
  intro content hcontent
  have hleft : MayLeave ((some bytes).map .durable) content := hcontent
  rw [may_leave_durable.1 hleft]
  exact ⟨count, hsure, h⟩

theorem Opened.mentioned (h : Opened c batches sure covered manifest body tail volume)
    {name : String} (hmentioned : Mentioned c volume name) :
    ∃ named, manifest = some named ∧ ∃ segment ∈ named.segments, segment.name = name := by
  obtain ⟨other, bytes, hentry, hconstructed, hencode, hdimension, segment, hsegment, rfl⟩ :=
    hmentioned
  obtain ⟨content, hcontent, hcheckpoint⟩ := h.checkpoint
  have hnames := hcheckpoint.mentions (hcontent _ hentry) hconstructed hencode hdimension
  exact ⟨other, hnames.1, segment, hsegment, rfl⟩

theorem Opened.quiet (h : Opened c batches sure covered manifest body tail volume)
    (hquiet : Volume.Quiet names volume volume')
    (hauthority : manifestFile ∉ names ∧ walFile ∉ names ∧ sparseWalFile ∉ names)
    (hsegments : ∀ name ∈ names, ¬ Mentioned c volume name) :
    Opened c batches sure covered manifest body tail volume' := by
  obtain ⟨hmanifest, hwal, hsparse⟩ := hauthority
  obtain ⟨content, hcontent, hcheckpoint⟩ := h.checkpoint
  refine ⟨h.history, hquiet.always hsparse h.sparse,
    ⟨content, hquiet.fixed hmanifest hcontent, ?_⟩, h.whole, h.torn, ?_, hquiet.always hwal h.logs,
    ?_⟩
  · refine hcheckpoint.quiet ?_ hquiet hsegments
    rw [← hcontent.now]
    exact List.mem_cons_self
  · rw [walSource, hquiet.files hwal]
    exact h.source
  · have hsubset := hquiet.since _ hwal
    rw [h.log_since] at hsubset
    exact List.subset_nil.1 hsubset

theorem Opened.kept (h : Opened c batches sure covered manifest body tail volume)
    (hidentity : volume.Fixed collectionFile (some c.identity)) : Kept c batches sure volume := by
  obtain ⟨content, hcontent, hcheckpoint⟩ := h.checkpoint
  refine ⟨h.history, hidentity.mono fun entry heq => .inr heq, .inl hidentity, h.sparse,
    hcontent.mono fun entry heq => ⟨covered, manifest, content, heq, hcheckpoint, h.logs⟩,
    covered, manifest, ?_, ⟨body, tail, h.whole, h.torn, h.source⟩, h.logs⟩
  rw [hcontent.files]
  exact hcheckpoint

variable {file : StoredFile}

theorem Opened.settled (h : Opened c batches sure covered manifest body [] volume)
    (hidentity : volume.Fixed collectionFile (some c.identity))
    (hfile : volume.now walFile = some file) : Settled c batches sure covered manifest volume := by
  have hbytes : file.bytes = body := by
    have hsource := h.source
    rw [walSource, files, hfile, List.append_nil] at hsource
    exact hsource
  exact ⟨h.history, hidentity, h.sparse, h.checkpoint, ⟨file, hfile, hbytes ▸ h.whole⟩, h.logs,
    h.log_since⟩

theorem Settled.covered_le (h : Settled c batches sure covered manifest volume) :
    covered ≤ batches.length := by
  obtain ⟨file, -, hwhole⟩ := h.log
  exact hwhole.covered_le

/-- A settled directory is an opened one whose log has no torn end. -/
theorem Settled.opened (h : Settled c batches sure covered manifest volume) :
    ∃ file, volume.now walFile = some file ∧
      Opened c batches sure covered manifest file.bytes [] volume := by
  obtain ⟨file, hfile, hwhole⟩ := h.log
  refine ⟨file, hfile, h.history, h.sparse, h.checkpoint, hwhole, torn_nil c.catalog, ?_, h.logs,
    h.log_since⟩
  rw [walSource, files, hfile, List.append_nil]
  rfl

theorem Settled.kept (h : Settled c batches sure covered manifest volume) :
    Kept c batches sure volume := by
  obtain ⟨file, -, hopened⟩ := h.opened
  exact hopened.kept h.identity

theorem Settled.quiet (h : Settled c batches sure covered manifest volume)
    (hquiet : Volume.Quiet names volume volume') (hfree : Free c names volume) :
    Settled c batches sure covered manifest volume' := by
  obtain ⟨hcollection, hmanifest, hwal, hsparse⟩ := mem_authority
  obtain ⟨file, hfile, hopened⟩ := h.opened
  have hafter := hopened.quiet hquiet ⟨hfree.authority _ hmanifest, hfree.authority _ hwal,
    hfree.authority _ hsparse⟩ hfree.segments
  have hnow : volume'.now walFile = some file := by
    rw [hquiet.now _ (hfree.authority _ hwal)]
    exact hfile
  exact hafter.settled (hquiet.fixed (hfree.authority _ hcollection) h.identity) hnow

theorem CheckpointAt.plain (h : CheckpointAt c batches volume covered manifest content)
    (hquiet : Volume.Quiet names volume volume') (hnames : ∀ name ∈ names, ¬ PointName name) :
    CheckpointAt c batches volume' covered manifest content :=
  h.congr rfl fun _ _ _ _ hname _ hfixed => hquiet.fixed (fun hmem => hnames _ hmem hname) hfixed

/-! ## The log -/

theorem wal_plain : ∀ name ∈ [walFile], ¬ PointName name := by
  unfold PointName
  decide

theorem wal_other : collectionFile ∉ [walFile] ∧ manifestFile ∉ [walFile] ∧
    sparseWalFile ∉ [walFile] := by
  decide

/-- A batch that was appended as a whole is sure. -/
theorem Settled.appended (h : Settled c batches sure covered manifest volume)
    {batch : List PointMutation}
    (hencode : encodePointBatch c.catalog (envelopeAfter (sequenceAfter c.catalog batches) batch) =
      .ok bytes)
    (hhistory : ∃ points last, History c.catalog (batches ++ [batch]) points last ∧ last < 2 ^ 64)
    (hfile : volume.now walFile = some file)
    (hnow : volume'.now walFile = some (.durable (file.bytes ++ bytes)))
    (hsince : volume'.since walFile = volume.since walFile)
    (hquiet : Volume.Quiet [walFile] volume volume') :
    Settled c (batches ++ [batch]) (batches ++ [batch]).length covered manifest volume' := by
  obtain ⟨hcollection, hmanifest, hsparse⟩ := wal_other
  obtain ⟨content, hcontent, hcheckpoint⟩ := h.checkpoint
  obtain ⟨found, hfound, hwhole⟩ := h.log
  obtain rfl := Option.some.inj (hfile.symm.trans hfound)
  have hlog := hwhole.snoc hencode
  rw [h.log_since] at hsince
  refine ⟨hhistory, hquiet.fixed hcollection h.identity, hquiet.always hsparse h.sparse,
    ⟨content, hquiet.fixed hmanifest hcontent,
      (hcheckpoint.plain hquiet wal_plain).extend h.covered_le [batch]⟩,
    ⟨_, hnow, hlog⟩, ?_, hsince⟩
  intro entry hentry
  rw [entries, hnow, hsince] at hentry
  rw [List.mem_singleton.1 hentry]
  exact log_entry_durable le_rfl hlog.log_at

/-- A log that grows by some bytes, of which any part may be left. -/
theorem Settled.grown (h : Settled c batches sure covered manifest volume)
    {more : List (List PointMutation)}
    (hhistory : ∃ points last, History c.catalog (batches ++ more) points last ∧ last < 2 ^ 64)
    (hfile : volume.now walFile = some file) {written : Nat}
    (hgrown : Durable.Grown walFile file bytes written volume volume')
    (hquiet : Volume.Quiet [walFile] volume volume')
    (hparts : ∀ n ≤ written, ∃ count, batches.length ≤ count ∧
      LogAt c.catalog (batches ++ more) covered count (file.bytes ++ bytes.take n))
    (hall : LogAt c.catalog (batches ++ more) covered (batches ++ more).length
      (file.bytes ++ bytes.take written)) :
    Kept c (batches ++ more) sure volume' := by
  obtain ⟨hcollection, hmanifest, hsparse⟩ := wal_other
  obtain ⟨content, hcontent, hcheckpoint⟩ := h.checkpoint
  obtain ⟨⟨since, hnow, hsince⟩, hentries⟩ := hgrown
  have hafter : CheckpointAt c (batches ++ more) volume' covered manifest content :=
    (hcheckpoint.plain hquiet wal_plain).extend h.covered_le more
  have hfixed := hquiet.fixed hmanifest hcontent
  have hlogs : volume'.Always (LogEntry c (batches ++ more) sure covered) walFile := by
    intro entry hentry left hleft
    rw [entries, hnow, hentries, h.log_since] at hentry
    rw [List.mem_singleton.1 hentry] at hleft
    obtain ⟨part, hpart, rfl⟩ := hleft
    have hold : part ∈ file.contents ∨ ∃ n ≤ written, part = file.bytes ++ bytes.take n := by
      rcases List.mem_cons.1 hpart with rfl | hpart
      · exact .inr ⟨written, le_rfl, rfl⟩
      · exact hsince part hpart
    rcases hold with hold | ⟨n, hle, rfl⟩
    · -- What was left before the append is left after it.
      have hbefore := h.logs.now
      rw [hfile] at hbefore
      obtain ⟨count, hsure, hlog⟩ := hbefore (some part) ⟨part, hold, rfl⟩
      exact ⟨count, hsure, hlog.extend more⟩
    · obtain ⟨count, hcount, hlog⟩ := hparts n hle
      exact ⟨count, h.kept.sure_le.trans hcount, hlog⟩
  refine ⟨hhistory, (hquiet.fixed hcollection h.identity).mono fun entry heq => .inr heq,
    .inl (hquiet.fixed hcollection h.identity), hquiet.always hsparse h.sparse,
    hfixed.mono fun entry heq => ⟨covered, manifest, content, heq, hafter, hlogs⟩,
    covered, manifest, ?_, ?_, hlogs⟩
  · rw [hfixed.files]
    exact hafter
  · rw [walSource, files, hnow]
    exact hall

/-- A batch that was not appended as a whole, or not synced, is there or not. -/
theorem Settled.torn (h : Settled c batches sure covered manifest volume)
    {batch : List PointMutation} (hbatch : BatchConstructed batch)
    (hencode : encodePointBatch c.catalog (envelopeAfter (sequenceAfter c.catalog batches) batch) =
      .ok bytes)
    (hhistory : ∃ points last, History c.catalog (batches ++ [batch]) points last ∧ last < 2 ^ 64)
    (hfile : volume.now walFile = some file) {written : Nat}
    (hgrown : Durable.Grown walFile file bytes written volume volume')
    (hquiet : Volume.Quiet [walFile] volume volume') :
    Kept c (batches ++ [batch]) sure volume' ∨ Kept c batches sure volume' := by
  obtain ⟨found, hfound, hwhole⟩ := h.log
  obtain rfl := Option.some.inj (hfile.symm.trans hfound)
  by_cases hlength : bytes.length ≤ written
  · refine .inl (h.grown hhistory hfile hgrown hquiet
      (fun n _ => hwhole.grown hbatch hencode n) ?_)
    rw [List.take_of_length_le hlength]
    exact (hwhole.snoc hencode).log_at
  · have hconstructed : (envelopeAfter (sequenceAfter c.catalog batches) batch).Constructed :=
      hbatch
    have hparts : ∀ n ≤ written,
        LogAt c.catalog batches covered batches.length (file.bytes ++ bytes.take n) := by
      intro n hle
      refine ⟨file.bytes, bytes.take n, hwhole, .inr ⟨_, bytes, hconstructed, hencode,
        List.take_prefix n bytes, ?_⟩, rfl⟩
      rw [List.length_take]
      omega
    have hsame : batches ++ [] = batches := List.append_nil batches
    have hkept : Kept c (batches ++ []) sure volume' :=
      h.grown (hsame.symm ▸ h.history) hfile hgrown hquiet
        (fun n hle => ⟨batches.length, le_rfl, hsame.symm ▸ hparts n hle⟩)
        (hsame.symm ▸ hparts written le_rfl)
    exact .inr (hsame ▸ hkept)

/-! ## A new checkpoint -/

theorem publish_plain : ∀ name ∈ [manifestTemporary, manifestFile], ¬ PointName name := by
  unfold PointName
  decide

theorem publish_other : collectionFile ∉ [manifestTemporary, manifestFile] ∧
    walFile ∉ [manifestTemporary, manifestFile] ∧
    sparseWalFile ∉ [manifestTemporary, manifestFile] := by
  decide

/-- While a checkpoint of the whole history is published either manifest may be left. -/
theorem Settled.publishing (h : Settled c batches sure covered manifest volume)
    {next : ManifestFile.Manifest}
    (hnext : CheckpointAt c batches volume batches.length (some next) (some bytes))
    (hreplaced : Durable.Replaced manifestFile bytes volume volume')
    (hquiet : Volume.Quiet [manifestTemporary, manifestFile] volume volume') :
    Kept c batches sure volume' := by
  obtain ⟨hcollection, hwal, hsparse⟩ := publish_other
  obtain ⟨content, hcontent, hcheckpoint⟩ := h.checkpoint
  have hold := hcheckpoint.plain hquiet publish_plain
  have hnew := hnext.plain hquiet publish_plain
  have hlogs := hquiet.always hwal h.logs
  have hlater : volume'.Always (LogEntry c batches sure batches.length) walFile :=
    hlogs.mono fun entry hentry => (hentry.later h.covered_le).weaken h.kept.sure_le
  obtain ⟨file, hfile, hwhole⟩ := h.log
  have hsource : LogAt c.catalog batches covered batches.length (walSource volume'.files) := by
    rw [walSource, hquiet.files hwal, files, hfile]
    exact hwhole.log_at
  refine ⟨h.history, (hquiet.fixed hcollection h.identity).mono fun entry heq => .inr heq,
    .inl (hquiet.fixed hcollection h.identity), hquiet.always hsparse h.sparse, ?_, ?_⟩
  · intro entry hentry
    rcases hreplaced.entries entry hentry with hbefore | hafter
    · exact ⟨covered, manifest, content, hcontent entry hbefore, hold, hlogs⟩
    · exact ⟨batches.length, some next, some bytes, hafter, hnew, hlater⟩
  · rcases hreplaced.now with hbefore | hafter
    · refine ⟨covered, manifest, ?_, hsource, hlogs⟩
      rw [files, hbefore, ← files, hcontent.files]
      exact hold
    · refine ⟨batches.length, some next, ?_, ?_, hlater⟩
      · rw [files, hafter]
        exact hnew
      · have hsource' := hsource.later h.covered_le le_rfl
        rwa [max_self] at hsource'

/-- Once it is published the whole history is sure. -/
theorem Settled.published (h : Settled c batches sure covered manifest volume)
    {next : ManifestFile.Manifest}
    (hnext : CheckpointAt c batches volume batches.length (some next) (some bytes))
    (hnow : volume'.now manifestFile = some (.durable bytes))
    (hsince : volume'.since = fun _ => [])
    (hquiet : Volume.Quiet [manifestTemporary, manifestFile] volume volume') :
    Settled c batches batches.length batches.length (some next) volume' := by
  obtain ⟨hcollection, hwal, hsparse⟩ := publish_other
  obtain ⟨file, hfile, hwhole⟩ := h.log
  refine ⟨h.history, hquiet.fixed hcollection h.identity, hquiet.always hsparse h.sparse,
    ⟨some bytes, ?_, hnext.plain hquiet publish_plain⟩, ⟨file, ?_, ?_⟩,
    (hquiet.always hwal h.logs).mono fun entry hentry => hentry.later h.covered_le, ?_⟩
  · intro entry hentry
    rw [entries, hnow, hsince] at hentry
    exact List.mem_singleton.1 hentry
  · rw [hquiet.now _ hwal, hfile]
  · have hlater := hwhole.later h.covered_le le_rfl
    rwa [max_self] at hlater
  · rw [hsince]

/-! ## New logs -/

theorem rotate_plain : ∀ name ∈ [walTemporary, walFile], ¬ PointName name := by
  unfold PointName
  decide

theorem rotate_other : collectionFile ∉ [walTemporary, walFile] ∧
    manifestFile ∉ [walTemporary, walFile] ∧ sparseWalFile ∉ [walTemporary, walFile] := by
  decide

theorem log_entry_rotated (h : volume.Always (LogEntry c batches
      batches.length batches.length) walFile)
    (hentry : entry ∈ volume.entries walFile ∨ entry = some (.durable [])) :
    LogEntry c batches batches.length batches.length entry := by
  rcases hentry with hold | rfl
  · exact h entry hold
  · exact log_entry_durable le_rfl (whole_nil le_rfl).log_at

/-- While the log is rotated the old one and the new one may be left. -/
theorem Settled.rotating (h : Settled c batches batches.length batches.length manifest volume)
    (hreplaced : Durable.Replaced walFile [] volume volume')
    (hquiet : Volume.Quiet [walTemporary, walFile] volume volume') :
    Kept c batches batches.length volume' := by
  obtain ⟨hcollection, hmanifest, hsparse⟩ := rotate_other
  obtain ⟨content, hcontent, hcheckpoint⟩ := h.checkpoint
  have hfixed := hquiet.fixed hmanifest hcontent
  have hafter := hcheckpoint.plain hquiet rotate_plain
  have hlogs : volume'.Always (LogEntry c batches batches.length batches.length) walFile :=
    fun entry hentry => log_entry_rotated h.logs (hreplaced.entries entry hentry)
  refine ⟨h.history, (hquiet.fixed hcollection h.identity).mono fun entry heq => .inr heq,
    .inl (hquiet.fixed hcollection h.identity), hquiet.always hsparse h.sparse,
    hfixed.mono fun entry heq => ⟨batches.length, manifest, content, heq, hafter, hlogs⟩,
    batches.length, manifest, ?_, ?_, hlogs⟩
  · rw [hfixed.files]
    exact hafter
  · rcases hreplaced.now with hbefore | hnew
    · obtain ⟨file, hfile, hwhole⟩ := h.log
      rw [walSource, files, hbefore, hfile]
      exact hwhole.log_at
    · rw [walSource, files, hnew]
      exact (whole_nil le_rfl).log_at

theorem Settled.rotated (h : Settled c batches batches.length batches.length manifest volume)
    (hnow : volume'.now walFile = some (.durable [])) (hsince : volume'.since = fun _ => [])
    (hquiet : Volume.Quiet [walTemporary, walFile] volume volume') :
    Settled c batches batches.length batches.length manifest volume' := by
  obtain ⟨hcollection, hmanifest, hsparse⟩ := rotate_other
  obtain ⟨content, hcontent, hcheckpoint⟩ := h.checkpoint
  refine ⟨h.history, hquiet.fixed hcollection h.identity, hquiet.always hsparse h.sparse,
    ⟨content, hquiet.fixed hmanifest hcontent, hcheckpoint.plain hquiet rotate_plain⟩,
    ⟨.durable [], hnow, whole_nil le_rfl⟩, ?_, by rw [hsince]⟩
  intro entry hentry
  rw [entries, hnow, hsince] at hentry
  exact log_entry_rotated h.logs (.inr (List.mem_singleton.1 hentry))

theorem rotate_sparse_plain : ∀ name ∈ [sparseWalTemporary, sparseWalFile], ¬ PointName name := by
  unfold PointName
  decide

theorem rotate_sparse_other : collectionFile ∉ [sparseWalTemporary, sparseWalFile] ∧
    manifestFile ∉ [sparseWalTemporary, sparseWalFile] ∧
    walFile ∉ [sparseWalTemporary, sparseWalFile] := by
  decide

theorem Settled.sparse_rotated (h : Settled c batches sure covered manifest volume)
    (hreplaced : Durable.Replaced sparseWalFile [] volume volume')
    (hquiet : Volume.Quiet [sparseWalTemporary, sparseWalFile] volume volume') :
    Settled c batches sure covered manifest volume' := by
  obtain ⟨hcollection, hmanifest, hwal⟩ := rotate_sparse_other
  obtain ⟨content, hcontent, hcheckpoint⟩ := h.checkpoint
  refine ⟨h.history, hquiet.fixed hcollection h.identity, ?_,
    ⟨content, hquiet.fixed hmanifest hcontent, hcheckpoint.plain hquiet rotate_sparse_plain⟩, ?_,
    hquiet.always hwal h.logs, ?_⟩
  · intro entry hentry
    rcases hreplaced.entries entry hentry with hbefore | hafter
    · exact h.sparse entry hbefore
    · exact .inr hafter
  · rw [hquiet.now _ hwal]
    exact h.log
  · have hsubset := hquiet.since _ hwal
    rw [h.log_since] at hsubset
    exact List.subset_nil.1 hsubset

end

end Akasha.Storage

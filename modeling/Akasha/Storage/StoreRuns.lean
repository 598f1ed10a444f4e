import Akasha.Lib.Ledger
import Akasha.Storage.StoreCheckpoint

/-!
# Runs of a point store

A collection lives through processes that open it, write batches and checkpoints, and end or die at
any step, and through crashes of the machine. `Run` are all such runs from an empty directory on,
with the answers that clients got. `open_store_shows` is the main theorem: whatever happened, a
store that is open shows a history that has every acknowledged batch, in its order and with the
sequences of its answer, and nothing that no client asked for. `collection_reopens` says that a
store can be opened again, and `acknowledged_survives` and `checkpoint_survives` after which
operations no crash changes what clients see.
-/

namespace Akasha.Storage

open Lib Lib.Exec

/-- A collection between operations: its directory, and the store that a process has open. -/
structure Site where
  volume : Volume
  store : Option PointStore

/-- What a client of `applyBatch` is told. A batch that is refused leaves nothing to tell. -/
def answersTo (batch : List PointMutation) :
    Except (Fault String) PointCommit → List (Answer (List PointMutation) PointCommit)
  | .ok commit => [.acknowledged batch commit]
  | .error (.raised _) => []
  | .error _ => [.uncertain batch]

/-- The store that is open after an operation: it is gone with its process. -/
def stillOpen {α : Type} : Except (Fault String) α → PointStore → Option PointStore
  | .error .crash, _ => none
  | _, store => some store

/-- The runs of a collection, with the answers to its batches. -/
inductive Run (c : Collection) : List (Answer (List PointMutation) PointCommit) → Site → Prop where
  | start : Run c [] ⟨.ofFiles fun _ => none, none⟩
  | opened {answers volume store s'} (surroundings : Surroundings) (verdicts : List Verdict)
      (h : Run c answers ⟨volume, none⟩)
      (hrun : PointStore.open surroundings c.fields ⟨volume, verdicts⟩ = (.ok store, s')) :
      Run c answers ⟨s'.state, some store⟩
  | notOpened {answers volume e s'} (surroundings : Surroundings) (verdicts : List Verdict)
      (h : Run c answers ⟨volume, none⟩)
      (hrun : PointStore.open surroundings c.fields ⟨volume, verdicts⟩ = (.error e, s')) :
      Run c answers ⟨s'.state, none⟩
  | applied {answers volume store result s'} (batch : List PointMutation)
      (verdicts : List Verdict) (h : Run c answers ⟨volume, some store⟩)
      (hbatch : BatchConstructed batch)
      (hrun : PointStore.applyBatch batch ⟨⟨volume, store⟩, verdicts⟩ = (result, s')) :
      Run c (answers ++ answersTo batch result) ⟨s'.state.volume, stillOpen result s'.state.store⟩
  | checkpointed {answers volume store result s'} (surroundings : Surroundings) (compact : Bool)
      (hnsw : Option HnswCheckpoint) (verdicts : List Verdict)
      (h : Run c answers ⟨volume, some store⟩)
      (hrun : PointStore.checkpoint surroundings compact hnsw ⟨⟨volume, store⟩, verdicts⟩ =
        (result, s')) :
      Run c answers ⟨s'.state.volume, stillOpen result s'.state.store⟩
  -- Graphs are written, synced and removed beside the store.
  | graphsChanged {answers volume volume' store names} (h : Run c answers ⟨volume, store⟩)
      (hnames : ∀ name ∈ names, GraphName name) (hquiet : Volume.Quiet names volume volume') :
      Run c answers ⟨volume', store⟩
  -- The store is closed, or its process ends between two operations.
  | closed {answers volume store} (h : Run c answers ⟨volume, some store⟩) :
      Run c answers ⟨volume, none⟩
  -- The machine goes down. What was not synced may be lost.
  | crashed {answers volume store files} (h : Run c answers ⟨volume, store⟩)
      (hsurvives : volume.Survives files) : Run c answers ⟨.ofFiles files, none⟩

/-- A directory keeps what the answers allow. -/
def Accounted (c : Collection) (answers : List (Answer (List PointMutation) PointCommit))
    (volume : Volume) : Prop :=
  ∃ batches sure, Ledger (commitOf c.catalog) answers batches sure ∧ Kept c batches sure volume

/-- A store is ready and shows what its directory keeps, or is broken and still shows a history that
the answers allow. -/
inductive Serving (c : Collection) (answers : List (Answer (List PointMutation) PointCommit))
    (volume : Volume) (store : PointStore) : Prop where
  | running {batches sure covered} (hledger : Ledger (commitOf c.catalog) answers batches sure)
      (hrunning : Running c batches sure covered ⟨volume, store⟩)
  | broken {batches} (hexplains : Explains (commitOf c.catalog) answers batches)
      (hbroken : Broken c batches store) (hvolume : Accounted c answers volume)

/-- What holds in every run. -/
def SiteSound (c : Collection) (answers : List (Answer (List PointMutation) PointCommit))
    (site : Site) : Prop :=
  match site.store with
  | none => Accounted c answers site.volume
  | some store => Serving c answers site.volume store

section

variable {c : Collection} {answers : List (Answer (List PointMutation) PointCommit)}
  {volume : Volume} {store : PointStore} {surroundings : Surroundings}

theorem kept_empty (c : Collection) : Kept c [] 0 (.ofFiles fun _ => none) := by
  have hnone : ∀ name, Volume.Fixed (.ofFiles fun _ => none) name none :=
    Volume.fixed_of_files fun _ => none
  have hlog : (Volume.ofFiles fun _ => none).Always (LogEntry c [] 0 0) walFile := by
    refine (hnone walFile).mono fun entry heq content hcontent => ?_
    rw [heq] at hcontent
    obtain rfl := Volume.may_leave_durable.1 hcontent
    exact ⟨0, le_rfl, (whole_nil le_rfl).log_at⟩
  refine ⟨⟨_, _, history_nil c.catalog, ?_⟩, (hnone _).mono fun _ heq => .inl heq,
    .inr ⟨rfl, hnone _, hnone _⟩, (hnone _).mono fun _ heq => .inl heq,
    (hnone _).mono fun _ heq => ⟨0, none, none, heq, .absent, hlog⟩,
    0, none, .absent, (whole_nil le_rfl).log_at, hlog⟩
  rw [c.cutover_eq]
  decide

theorem Serving.accounted (h : Serving c answers volume store) : Accounted c answers volume := by
  cases h with
  | running hledger hrunning => exact ⟨_, _, hledger, hrunning.settled.kept⟩
  | broken _ _ hvolume => exact hvolume

theorem Serving.shows (h : Serving c answers volume store) :
    ∃ batches, Explains (commitOf c.catalog) answers batches ∧
      store.table.Shows c.catalog batches ∧ store.locked = true := by
  cases h with
  | running hledger hrunning => exact ⟨_, hledger.held, hrunning.shows, hrunning.locked⟩
  | broken hexplains hbroken => exact ⟨_, hexplains, hbroken.shows, hbroken.locked⟩

theorem SiteSound.accounted {site : Site} (h : SiteSound c answers site) :
    Accounted c answers site.volume := by
  obtain ⟨volume, store⟩ := site
  cases store with
  | none => exact h
  | some store => exact Serving.accounted h

/-! ## Steps -/

variable {batches : List (List PointMutation)}

theorem Broken.refuses (h : Broken c batches store) :
    ∃ message, store.ensureWritable = .error message := by
  cases hwritable : store.ensureWritable with
  | error message => exact ⟨message, rfl⟩
  | ok _ =>
      unfold PointStore.ensureWritable at hwritable
      simp only [bind_ok, exists_unit, require_ok] at hwritable
      exact absurd h.failed hwritable.2

theorem Broken.refuses_batch {s : Scheduled Desk} (h : Broken c batches s.state.store)
    (batch : List PointMutation) :
    wp (PointStore.applyBatch batch) (fun _ _ => False)
      (fun e s' => (∃ message, e = .raised message) ∧ s' = s) s := by
  obtain ⟨message, hmessage⟩ := h.refuses
  unfold PointStore.applyBatch
  rw [wp_bind, ScheduleM.wp_get, wp_bind, ScheduleM.wp_of_except, hmessage]
  exact ⟨fun _ hcontra => (by cases hcontra), fun message _ => ⟨⟨message, rfl⟩, rfl⟩⟩

theorem Broken.refuses_checkpoint {s : Scheduled Desk} (h : Broken c batches s.state.store)
    (compact : Bool) (hnsw : Option HnswCheckpoint) :
    wp (PointStore.checkpoint surroundings compact hnsw) (fun _ _ => False)
      (fun _ s' => s' = s) s := by
  obtain ⟨message, hmessage⟩ := h.refuses
  unfold PointStore.checkpoint
  rw [wp_bind, ScheduleM.wp_get, wp_bind, ScheduleM.wp_of_except, hmessage]
  exact ⟨fun _ hcontra => (by cases hcontra), fun _ _ => rfl⟩

theorem sound_still_open {α : Type} {result : Except (Fault String) α}
    (h : Serving c answers volume store) :
    SiteSound c answers ⟨volume, stillOpen result store⟩ := by
  unfold stillOpen
  split
  · exact h.accounted
  · exact h

/-- A batch and its answer. -/
theorem Serving.applied (h : Serving c answers volume store) {batch : List PointMutation}
    (hbatch : BatchConstructed batch) (verdicts : List Verdict) :
    wp (PointStore.applyBatch batch)
      (fun commit s' => Serving c (answers ++ answersTo batch (.ok commit)) s'.state.volume
        s'.state.store)
      (fun e s' => Serving c (answers ++ answersTo batch (.error e)) s'.state.volume
        s'.state.store) ⟨⟨volume, store⟩, verdicts⟩ := by
  have hrefused : ∀ {e : Fault String} {s' : Scheduled Desk}, (∃ message, e = .raised message) →
      s' = ⟨⟨volume, store⟩, verdicts⟩ → Serving c (answers ++ answersTo batch (.error e))
        s'.state.volume s'.state.store := by
    rintro e s' ⟨message, rfl⟩ rfl
    rw [answersTo, List.append_nil]
    exact h
  cases h with
  | broken hexplains hbroken hvolume =>
      exact wp_mono (Broken.refuses_batch (s := ⟨⟨volume, store⟩, verdicts⟩) hbroken batch)
        (fun _ _ hfalse => hfalse.elim)
        fun e s' hpost => hrefused hpost.1 hpost.2
  | @running batches sure covered hledger hrunning =>
      refine wp_mono (wp_apply_batch (s := ⟨⟨volume, store⟩, verdicts⟩) hrunning hbatch)
        (fun commit s' hpost => ?_) fun e s' hpost => ?_
      · obtain ⟨rfl, hnext, -⟩ := hpost
        exact .running (hledger.acknowledge batch) hnext
      · rcases hpost with ⟨hraised, hsame⟩ | ⟨hhalted, hbroken, hkept⟩
        · exact hrefused hraised hsame
        · have hanswer : answersTo batch (.error e) = [.uncertain batch] := by
            rcases hhalted.struck with rfl | rfl
            · rfl
            · rfl
          rw [hanswer]
          refine .broken hledger.held.lost hbroken ?_
          rcases hkept with hwith | hwithout
          · exact ⟨_, _, hledger.keep batch, hwith⟩
          · exact ⟨_, _, hledger.lose batch, hwithout⟩

/-- A checkpoint changes no answer. -/
theorem Serving.checkpointed (h : Serving c answers volume store) (surroundings : Surroundings)
    (compact : Bool) (hnsw : Option HnswCheckpoint) (verdicts : List Verdict) :
    wp (PointStore.checkpoint surroundings compact hnsw)
      (fun _ s' => Serving c answers s'.state.volume s'.state.store)
      (fun _ s' => Serving c answers s'.state.volume s'.state.store)
      ⟨⟨volume, store⟩, verdicts⟩ := by
  cases h with
  | broken hexplains hbroken hvolume =>
      refine wp_mono (Broken.refuses_checkpoint (s := ⟨⟨volume, store⟩, verdicts⟩) hbroken compact
        hnsw) (fun _ _ hfalse => hfalse.elim) ?_
      rintro e s' rfl
      exact .broken hexplains hbroken hvolume
  | running hledger hrunning =>
      refine wp_mono (wp_checkpoint (s := ⟨⟨volume, store⟩, verdicts⟩) surroundings hrunning compact
        hnsw) (fun _ s' hpost => ?_)
        fun e s' hpost => ?_
      · exact .running (hledger.secure hrunning.settled.kept.sure_le le_rfl) hpost
      · rcases hpost with hsame | ⟨hbroken, hkept⟩
        · exact .running hledger hsame
        · exact .broken hledger.held hbroken ⟨_, _, hledger, hkept⟩

/-- A store that is opened shows what the answers allow. -/
theorem Accounted.opened {s : Scheduled Volume} (h : Accounted c answers s.state) :
    wp (PointStore.open surroundings c.fields)
      (fun store s' => Serving c answers s'.state store)
      (fun e s' => Accounted c answers s'.state ∧
        (Halted s e ∨ ¬ surroundings.GraphOpens s.state.files)) s := by
  obtain ⟨batches, sure, hledger, hkept⟩ := h
  refine wp_mono (wp_open surroundings hkept) (fun store s' hpost => ?_) fun e s' hpost => ?_
  · obtain ⟨⟨covered, hrunning⟩, -⟩ := hpost
    exact .running hledger hrunning
  · exact ⟨⟨batches, sure, hledger, hpost.1⟩, hpost.2⟩

/-- What becomes of the graphs changes nothing else. -/
theorem SiteSound.graphs {open' : Option PointStore} (h : SiteSound c answers ⟨volume, open'⟩)
    {names : List String} (hnames : ∀ name ∈ names, GraphName name) {volume' : Volume}
    (hquiet : Volume.Quiet names volume volume') : SiteSound c answers ⟨volume', open'⟩ := by
  have hfresh : Fresh volume names := ⟨fun name hname => .inr (hnames name hname),
    fun name hname hpoint => absurd hpoint (graph_not_point (hnames name hname))⟩
  have hafter : Accounted c answers volume → Accounted c answers volume' := by
    rintro ⟨batches, sure, hledger, hkept⟩
    exact ⟨batches, sure, hledger, hkept.quiet hquiet (hfresh.free hkept)⟩
  cases open' with
  | none => exact hafter h
  | some store =>
      cases (show Serving c answers volume store from h) with
      | running hledger hrunning =>
          exact .running hledger (Running.fresh hrunning hfresh hquiet)
      | broken hexplains hbroken hvolume =>
          exact .broken hexplains hbroken (hafter hvolume)

theorem Accounted.survives (h : Accounted c answers volume) {files : Files}
    (hsurvives : volume.Survives files) : Accounted c answers (.ofFiles files) := by
  obtain ⟨batches, sure, hledger, hkept⟩ := h
  obtain ⟨count, hsure, hcount, hleft⟩ := hkept.survives hsurvives
  exact ⟨_, _, hledger.cut hsure hcount, hleft⟩

/-! ## Runs -/

/-- Every run is sound. -/
theorem run_sound {site : Site} (h : Run c answers site) : SiteSound c answers site := by
  induction h with
  | start => exact ⟨[], 0, ledger_nil _, kept_empty c⟩
  | @opened answers volume store s' surroundings verdicts h hrun ih =>
      have hbefore : Accounted c answers (Scheduled.mk volume verdicts).state := ih
      have hafter := wp_ok hbefore.opened hrun
      exact hafter
  | @notOpened answers volume e s' surroundings verdicts h hrun ih =>
      have hbefore : Accounted c answers (Scheduled.mk volume verdicts).state := ih
      have hafter := wp_error hbefore.opened hrun
      exact hafter.1
  | @applied answers volume store result s' batch verdicts h hbatch hrun ih =>
      have hbefore : Serving c answers volume store := ih
      have hafter := hbefore.applied hbatch verdicts
      cases result with
      | ok commit =>
          have hserving := wp_ok hafter hrun
          exact sound_still_open hserving
      | error e =>
          have hserving := wp_error hafter hrun
          exact sound_still_open hserving
  | @checkpointed answers volume store result s' surroundings compact hnsw verdicts h hrun ih =>
      have hbefore : Serving c answers volume store := ih
      have hafter := hbefore.checkpointed surroundings compact hnsw verdicts
      cases result with
      | ok _ =>
          have hserving := wp_ok hafter hrun
          exact sound_still_open hserving
      | error e =>
          have hserving := wp_error hafter hrun
          exact sound_still_open hserving
  | graphsChanged _ hnames hquiet ih => exact ih.graphs hnames hquiet
  | closed _ ih =>
      have hbefore := SiteSound.accounted ih
      exact hbefore
  | crashed _ hsurvives ih =>
      have hbefore := SiteSound.accounted ih
      exact hbefore.survives hsurvives

/-! ## A small collection -/

/-- A collection of the two default fields and a binary one. -/
def smallCollection : Collection where
  fields := smallCatalog.fields
  catalog := smallCatalog
  identity := withChecksum (catalogBody smallCatalog)
  created := create_catalog_ok.2 ⟨rfl, rfl, rfl, rfl⟩
  encoded := encode_catalog_ok rfl

/-- A world in which nothing is shared. -/
def calmSurroundings : Surroundings where
  chunk remaining := remaining
  listing := []
  leased _ := false
  openGraph _ _ _ _ _ := .ok true

theorem calm_graph_opens (files : Files) : calmSurroundings.GraphOpens files :=
  fun _ _ _ _ _ _ _ _ _ _ _ _ _ => ⟨true, rfl⟩

/-- A point is created, and another one deleted that is not there. -/
def smallBatch : List PointMutation :=
  [⟨7, 1, [⟨0, some (.dense (.f32 [⟨1⟩, ⟨2⟩, ⟨3⟩, ⟨4⟩]))⟩], none⟩, ⟨8, 2, [], none⟩]

theorem small_batch_constructed : BatchConstructed smallBatch := by
  intro mutation hmutation update hupdate value hvalue
  rcases List.mem_cons.1 hmutation with rfl | hmutation
  · obtain rfl := List.mem_singleton.1 hupdate
    obtain rfl := Option.some.inj hvalue
    rfl
  · obtain rfl := List.mem_singleton.1 hmutation
    cases hupdate

/-- Another point is created. -/
def nextBatch : List PointMutation :=
  [⟨9, 1, [⟨0, some (.dense (.f32 [⟨5⟩, ⟨6⟩, ⟨7⟩, ⟨8⟩]))⟩], none⟩]

theorem next_batch_constructed : BatchConstructed nextBatch := by
  intro mutation hmutation update hupdate value hvalue
  obtain rfl := List.mem_singleton.1 hmutation
  obtain rfl := List.mem_singleton.1 hupdate
  obtain rfl := Option.some.inj hvalue
  rfl

/-- What an operation returned, with the state after it. -/
def returned {σ α : Type} : Except (Fault String) α × σ → Option (α × σ)
  | (.ok a, s) => some (a, s)
  | (.error _, _) => none

theorem returned_iff {σ α : Type} {outcome : Except (Fault String) α × σ} {a : α} {s : σ} :
    returned outcome = some (a, s) ↔ outcome = (.ok a, s) := by
  obtain ⟨result, s'⟩ := outcome
  cases result with
  | ok a' => simp [returned]
  | error e => simp [returned]

/-- The directory when the checkpoint dies that writes the manifest. -/
def interrupted (s : Scheduled Desk) : Volume :=
  (PointStore.checkpoint calmSurroundings false none
    ⟨s.state, List.replicate 131 .passes ++ [.dies]⟩).2.state.volume

/-- An empty directory is opened and a batch written. Then a checkpoint is made, or it dies and
nothing is left that was not synced, the directory is opened again and another batch written. -/
def smallRun : Option Bool := do
  let (store, s) ← returned
    (PointStore.open calmSurroundings smallCollection.fields ⟨.ofFiles fun _ => none, []⟩)
  let (_, s') ← returned (PointStore.applyBatch smallBatch ⟨⟨s.state, store⟩, []⟩)
  let _ ← returned (PointStore.checkpoint calmSurroundings false none s')
  let (reopened, t) ← returned (PointStore.open calmSurroundings smallCollection.fields
    ⟨.ofFiles (interrupted s').oldest, []⟩)
  let _ ← returned (PointStore.applyBatch nextBatch ⟨⟨t.state, reopened⟩, []⟩)
  pure (((interrupted s').files manifestTemporary).isSome &&
    ((interrupted s').oldest manifestTemporary).isNone)

theorem small_run_returns : ∃ store s commit s' s'' reopened t commit' t',
    PointStore.open calmSurroundings smallCollection.fields ⟨.ofFiles fun _ => none, []⟩ =
        (.ok store, s) ∧
      PointStore.applyBatch smallBatch ⟨⟨s.state, store⟩, []⟩ = (.ok commit, s') ∧
      PointStore.checkpoint calmSurroundings false none s' = (.ok (), s'') ∧
      PointStore.open calmSurroundings smallCollection.fields
        ⟨.ofFiles (interrupted s').oldest, []⟩ = (.ok reopened, t) ∧
      PointStore.applyBatch nextBatch ⟨⟨t.state, reopened⟩, []⟩ = (.ok commit', t') ∧
      (interrupted s').oldest manifestTemporary ≠ (interrupted s').files manifestTemporary := by
  have hdone : smallRun = some true := by decide +kernel
  simp only [smallRun, Option.bind_eq_bind, Option.bind_eq_some_iff, Prod.exists, returned_iff,
    Option.pure_def, Option.some.injEq, Bool.and_eq_true] at hdone
  obtain ⟨store, s, hopen, commit, s', happly, ⟨⟩, s'', hcheckpoint, reopened, t, hreopen, commit',
    t', hagain, hnew, hlost⟩ := hdone
  refine ⟨store, s, commit, s', s'', reopened, t, commit', t', hopen, happly, hcheckpoint, hreopen,
    hagain, fun heq => ?_⟩
  rw [heq, Option.isNone_iff_eq_none] at hlost
  rw [hlost] at hnew
  cases hnew

theorem small_run : ∃ commit s s',
    Run smallCollection [.acknowledged smallBatch commit] ⟨s.state.volume, some s.state.store⟩ ∧
      PointStore.checkpoint calmSurroundings false none s = (.ok (), s') := by
  obtain ⟨store, s, commit, s', s'', _, _, _, _, hopen, happly, hcheckpoint, -⟩ := small_run_returns
  have hopened := Run.opened calmSurroundings [] .start hopen
  exact ⟨commit, s', s'', .applied smallBatch [] hopened small_batch_constructed happly,
    hcheckpoint⟩

theorem interrupted_run {store : PointStore} {s : Scheduled Volume} {commit : PointCommit}
    {s' : Scheduled Desk} (hopen : PointStore.open calmSurroundings smallCollection.fields
        ⟨.ofFiles fun _ => none, []⟩ = (.ok store, s))
    (happly : PointStore.applyBatch smallBatch ⟨⟨s.state, store⟩, []⟩ = (.ok commit, s')) :
    ∃ left, Run smallCollection [.acknowledged smallBatch commit] ⟨interrupted s', left⟩ := by
  have hopened := Run.opened calmSurroundings [] .start hopen
  have happlied := Run.applied smallBatch [] hopened small_batch_constructed happly
  exact ⟨_, .checkpointed calmSurroundings false none _ happlied rfl⟩

/-! ## What clients see -/

theorem live_points_shown (hlocked : store.locked = true)
    (h : store.table.Shows c.catalog batches) :
    ∃ points last, History c.catalog batches points last ∧
      (∀ id, store.get id = .ok ((points id).filter (!·.tombstone))) ∧
      store.lastSequence = .ok last := by
  obtain ⟨points, hhistory, hshown⟩ := h.history
  have hopen : store.ensureOpen = .ok () := require_ok.2 hlocked
  refine ⟨points, _, hhistory, fun id => ?_, bind_ok.2 ⟨(), hopen, rfl⟩⟩
  refine bind_ok.2 ⟨(), hopen, pure_ok.2 ?_⟩
  exact hshown.live id

/-- In every run a store that is open shows a history. All acknowledged batches are in it, in their
order and behind the batches that they were committed behind, and nothing else is in it but batches
whose writer was not told what became of them. -/
theorem open_store_shows (h : Run c answers ⟨volume, some store⟩) :
    ∃ batches points last, History c.catalog batches points last ∧
      (acknowledgedEntries answers).Sublist batches ∧
      batches.Sublist (answers.map Answer.entry) ∧
      (∀ batch commit, .acknowledged batch commit ∈ answers →
        ∃ before, before ++ [batch] <+: batches ∧ commit = commitOf c.catalog before batch) ∧
      (∀ id, store.get id = .ok ((points id).filter (!·.tombstone))) ∧
      store.lastSequence = .ok last := by
  obtain ⟨batches, hexplains, hshows, hlocked⟩ := Serving.shows (run_sound h)
  obtain ⟨points, last, hhistory, hget, hlast⟩ := live_points_shown hlocked hshows
  exact ⟨batches, points, last, hhistory, hexplains.acknowledged_sublist, hexplains.sublist,
    fun _ _ hmem => hexplains.receipt hmem, hget, hlast⟩

theorem open_store_shows_small : ∃ commit volume store,
    Run smallCollection [.acknowledged smallBatch commit] ⟨volume, some store⟩ ∧
      ∃ batches points last, History smallCatalog batches points last ∧
        [smallBatch].Sublist batches ∧
        (∀ id, store.get id = .ok ((points id).filter (!·.tombstone))) ∧
        store.lastSequence = .ok last := by
  obtain ⟨commit, s, -, hrun, -⟩ := small_run
  obtain ⟨batches, points, last, hhistory, hmem, -, -, hget, hlast⟩ := open_store_shows hrun
  exact ⟨commit, _, _, hrun, batches, points, last, hhistory, hmem, hget, hlast⟩

/-- A collection that nobody has open, after a crash or not, can be opened by a process that is not
disturbed. -/
theorem collection_reopens (h : Run c answers ⟨volume, none⟩) {verdicts : List Verdict}
    (hcalm : ∀ verdict ∈ verdicts, verdict = .passes)
    (hgraphs : surroundings.GraphOpens volume.files) :
    ∃ store s', PointStore.open surroundings c.fields ⟨volume, verdicts⟩ = (.ok store, s') ∧
      Run c answers ⟨s'.state, some store⟩ := by
  have hbefore : Accounted c answers (Scheduled.mk volume verdicts).state := run_sound h
  have hafter : wp (PointStore.open surroundings c.fields) _ _ ⟨volume, verdicts⟩ :=
    hbefore.opened
  cases hrun : PointStore.open surroundings c.fields ⟨volume, verdicts⟩ with
  | mk result s' =>
      cases result with
      | ok store => exact ⟨store, s', rfl, .opened surroundings verdicts h hrun⟩
      | error e =>
          rcases (wp_error hafter hrun).2 with hhalted | hclosed
          · exact absurd hhalted (not_halted hcalm)
          · exact absurd hgraphs hclosed

/-- A checkpoint dies while it writes the manifest, and what it had written of it is lost. -/
theorem collection_reopens_small : ∃ (commit : PointCommit) (volume : Volume)
    (left : Option PointStore) (store : PointStore) (s' : Scheduled Volume),
    Run smallCollection [.acknowledged smallBatch commit] ⟨volume, left⟩ ∧
      volume.oldest manifestTemporary ≠ volume.files manifestTemporary ∧
      PointStore.open calmSurroundings smallCollection.fields ⟨.ofFiles volume.oldest, [.passes]⟩ =
        (.ok store, s') ∧
      Run smallCollection [.acknowledged smallBatch commit] ⟨s'.state, some store⟩ := by
  obtain ⟨_, _, commit, s, _, _, _, _, _, hopen, happly, -, -, -, hlost⟩ := small_run_returns
  obtain ⟨left, hleft⟩ := interrupted_run hopen happly
  obtain ⟨store, s', hreopen, hrun⟩ := collection_reopens
    (.crashed hleft (Volume.survives_oldest _)) (fun verdict h => List.mem_singleton.1 h)
    (calm_graph_opens _)
  exact ⟨commit, _, left, store, s', hleft, hlost, hreopen, hrun⟩

/-- A client cannot tell two stores apart. -/
def SameView (store other : PointStore) : Prop :=
  (∀ id, other.get id = store.get id) ∧ other.lastSequence = store.lastSequence

theorem same_view {other : PointStore} (hlocked : store.locked = true)
    (h : store.table.Shows c.catalog batches) (hlocked' : other.locked = true)
    (h' : other.table.Shows c.catalog batches) :
    SameView store other := by
  obtain ⟨points, last, hhistory, hget, hlast⟩ := live_points_shown hlocked h
  obtain ⟨points', last', hhistory', hget', hlast'⟩ := live_points_shown hlocked' h'
  obtain ⟨rfl, rfl⟩ := hhistory.unique hhistory'
  exact ⟨fun id => (hget' id).trans (hget id).symm, hlast'.trans hlast.symm⟩

/-- A store all of whose batches are sure is found again after a crash. -/
theorem Running.reopened {covered : Nat} {desk : Desk}
    (h : Running c batches batches.length covered desk) {files : Files}
    (hsurvives : desk.volume.Survives files) {verdicts : List Verdict}
    (hcalm : ∀ verdict ∈ verdicts, verdict = .passes) (hgraphs : surroundings.GraphOpens files) :
    ∃ store s', PointStore.open surroundings c.fields ⟨.ofFiles files, verdicts⟩ = (.ok store, s') ∧
      SameView desk.store store := by
  obtain ⟨count, hsure, hcount, hkept⟩ := h.settled.kept.survives hsurvives
  rw [Nat.le_antisymm hcount hsure, List.take_length] at hkept
  have hafter : wp (PointStore.open surroundings c.fields) _ _ ⟨.ofFiles files, verdicts⟩ :=
    wp_open surroundings hkept
  cases hrun : PointStore.open surroundings c.fields ⟨.ofFiles files, verdicts⟩ with
  | mk result s' =>
      cases result with
      | ok store =>
          obtain ⟨⟨_, hrunning⟩, -⟩ := wp_ok hafter hrun
          exact ⟨store, s', rfl, same_view h.locked h.shows hrunning.locked hrunning.shows⟩
      | error e =>
          rcases (wp_error hafter hrun).2 with hhalted | hclosed
          · exact absurd hhalted (not_halted hcalm)
          · exact absurd ((Volume.files_of_files files).symm ▸ hgraphs) hclosed

/-- Once a batch is acknowledged no crash changes what clients see. -/
theorem acknowledged_survives (h : Run c answers ⟨volume, some store⟩) {batch : List PointMutation}
    (hbatch : BatchConstructed batch) {verdicts later : List Verdict} {commit : PointCommit}
    {s' : Scheduled Desk}
    (hrun : PointStore.applyBatch batch ⟨⟨volume, store⟩, verdicts⟩ = (.ok commit, s'))
    {files : Files} (hsurvives : s'.state.volume.Survives files)
    (hcalm : ∀ verdict ∈ later, verdict = .passes) (hgraphs : surroundings.GraphOpens files) :
    ∃ reopened s'', PointStore.open surroundings c.fields ⟨.ofFiles files, later⟩ =
      (.ok reopened, s'') ∧ SameView s'.state.store reopened := by
  cases (show Serving c answers volume store from run_sound h) with
  | broken _ hbroken _ =>
      exact (wp_ok (Broken.refuses_batch (s := ⟨⟨volume, store⟩, verdicts⟩) hbroken batch)
        hrun).elim
  | running _ hrunning =>
      obtain ⟨-, hnext, -⟩ := wp_ok (wp_apply_batch (s := ⟨⟨volume, store⟩, verdicts⟩) hrunning
        hbatch) hrun
      exact hnext.reopened hsurvives hcalm hgraphs

theorem acknowledged_survives_small : ∃ (s : Scheduled Desk) (reopened : PointStore)
    (s' : Scheduled Volume),
    PointStore.open calmSurroundings smallCollection.fields
        ⟨.ofFiles s.state.volume.files, [.passes]⟩ = (.ok reopened, s') ∧
      SameView s.state.store reopened := by
  obtain ⟨store, s, commit, s', _, _, _, _, _, hopen, happly, -⟩ := small_run_returns
  have hopened := Run.opened calmSurroundings [] .start hopen
  obtain ⟨reopened, t, hreopened, hview⟩ := acknowledged_survives hopened small_batch_constructed
    happly (Volume.survives_files _) (fun verdict h => List.mem_singleton.1 h) (calm_graph_opens _)
  exact ⟨s', reopened, t, hreopened, hview⟩

/-- Once a checkpoint has returned no crash changes what clients see, whether the batches had been
acknowledged or not. -/
theorem checkpoint_survives (h : Run c answers ⟨volume, some store⟩) {compact : Bool}
    {hnsw : Option HnswCheckpoint} {world : Surroundings} {verdicts later : List Verdict}
    {s' : Scheduled Desk}
    (hrun : PointStore.checkpoint world compact hnsw ⟨⟨volume, store⟩, verdicts⟩ = (.ok (), s'))
    {files : Files} (hsurvives : s'.state.volume.Survives files)
    (hcalm : ∀ verdict ∈ later, verdict = .passes) (hgraphs : surroundings.GraphOpens files) :
    ∃ reopened s'', PointStore.open surroundings c.fields ⟨.ofFiles files, later⟩ =
      (.ok reopened, s'') ∧ SameView store s'.state.store ∧ SameView s'.state.store reopened := by
  cases (show Serving c answers volume store from run_sound h) with
  | broken _ hbroken _ =>
      exact (wp_ok (Broken.refuses_checkpoint (s := ⟨⟨volume, store⟩, verdicts⟩) hbroken compact
        hnsw) hrun).elim
  | running _ hrunning =>
      have hnext := wp_ok (wp_checkpoint (s := ⟨⟨volume, store⟩, verdicts⟩) world hrunning compact
        hnsw) hrun
      obtain ⟨reopened, s'', hopen, hview⟩ := hnext.reopened hsurvives hcalm hgraphs
      exact ⟨reopened, s'', hopen,
        same_view hrunning.locked hrunning.shows hnext.locked hnext.shows, hview⟩

theorem checkpoint_survives_small : ∃ (s s' : Scheduled Desk) (reopened : PointStore)
    (t : Scheduled Volume),
    PointStore.checkpoint calmSurroundings false none s = (.ok (), s') ∧
      PointStore.open calmSurroundings smallCollection.fields
          ⟨.ofFiles s'.state.volume.files, [.passes]⟩ = (.ok reopened, t) ∧
        SameView s.state.store s'.state.store ∧ SameView s'.state.store reopened := by
  obtain ⟨commit, s, s', hrun, hcheckpoint⟩ := small_run
  obtain ⟨reopened, t, hreopened, hsame, hview⟩ := checkpoint_survives hrun hcheckpoint
    (Volume.survives_files _) (fun verdict h => List.mem_singleton.1 h) (calm_graph_opens _)
  exact ⟨s, s', reopened, t, hcheckpoint, hreopened, hsame, hview⟩

/-- If both batches were acknowledged, the first one has the earlier sequences. -/
def Before (first second : Answer (List PointMutation) PointCommit) : Prop :=
  ∀ batch commit batch' commit', first = .acknowledged batch commit →
    second = .acknowledged batch' commit' → commit.lastSequence < commit'.firstSequence

/-- No two acknowledged batches of a run share a sequence, whatever happened between them. -/
theorem commits_ordered {site : Site} (h : Run c answers site) : answers.Pairwise Before := by
  obtain ⟨batches, sure, hledger, -⟩ := SiteSound.accounted (run_sound h)
  refine hledger.held.ordered.imp fun {first second} hordered batch commit batch' commit' hfirst
    hsecond => ?_
  obtain ⟨front, back, rfl, rfl⟩ := hordered batch commit batch' commit' hfirst hsecond
  show sequenceAfter c.catalog front + batch.length <
    sequenceAfter c.catalog (front ++ batch :: back) + 1
  rw [sequence_after_append, List.map_cons, List.sum_cons]
  omega

theorem commits_ordered_small : ∃ commit commit' site,
    Run smallCollection [.acknowledged smallBatch commit, .acknowledged nextBatch commit'] site ∧
      [Answer.acknowledged smallBatch commit, .acknowledged nextBatch commit'].Pairwise Before := by
  obtain ⟨_, _, commit, _, _, _, _, commit', _, hopen, happly, -, hreopen, hagain, -⟩ :=
    small_run_returns
  obtain ⟨left, hleft⟩ := interrupted_run hopen happly
  have hcrashed := Run.crashed hleft (Volume.survives_oldest _)
  have hreopened := Run.opened calmSurroundings [] hcrashed hreopen
  have hrun := Run.applied nextBatch [] hreopened next_batch_constructed hagain
  exact ⟨commit, commit', _, hrun, commits_ordered hrun⟩

end

end Akasha.Storage

import Akasha.Lib.Exec
import Akasha.Query.SearchAgreement
import Akasha.Storage.SparseHits

/-!
# Scanning a read root

`ReadScanner` walks the runs of a root, oldest first, and each run slot by slot. A call of
`next_batch` goes on where the last one stopped, which can be in the middle of a run, at its end,
or behind runs in which nothing was found. `pending` is what is left to be returned from where
the cursor stands; a batch is a piece from its front (`next_batch_ok`), and a scan to the end
returns each visible row that the filter holds for once (`scan_visits_rows_once`).
-/

namespace Akasha

open Lib Lib.Exec List

namespace Api

open Storage Query

/-- `ScanBatch`: slots of one run. -/
structure ScanBatch where
  root : ReadGeneration
  layer : Nat
  ordinals : List Nat

namespace ScanBatch

def rowCount (batch : ScanBatch) : Nat := batch.ordinals.length

/-- `entry`. The run is there, since the scanner took it from the root. -/
def entry (batch : ScanBatch) (row : Int) : Except String MemTableEntry := do
  require (¬ (row < 0 ∨ row ≥ batch.rowCount)) "scanner row is outside batch"
  match batch.root.layers[batch.layer]?, batch.ordinals[row.toNat]? with
  | some layer, some ordinal => layer.run.memtable.entryRefAt ordinal
  | _, _ => throw "memtable ordinal out of bounds"

/-- The entries in the slots. -/
def rows (batch : ScanBatch) : List MemTableEntry :=
  (batch.root.layers[batch.layer]?).elim [] fun layer => layer.table.rowsAt batch.ordinals

/-- What a consumer reads that reads every row. -/
def entries (batch : ScanBatch) : Except String (List MemTableEntry) :=
  (range batch.rowCount).mapM fun row : Nat => batch.entry row

end ScanBatch

/-- `ReadScanner`: the cursor stands before a slot of a run. -/
structure ReadScanner where
  root : Option ReadGeneration
  expression : Option FilterExpression
  batchSize : Int
  layer : Nat
  ordinal : Nat
  closed : Bool
  visitedSlots : Nat

namespace ReadScanner

/-- `ReadScanner(root, batch_size, expression)`. -/
def create (root : ReadGeneration) (batchSize : Int) (expression : Option FilterExpression) :
    Except String ReadScanner := do
  require (¬ batchSize ≤ 0) "scanner batch size must be positive"
  checkEach expression.toList FilterExpression.validate
  pure ⟨some root, expression, batchSize, 0, 0, false, 0⟩

def close (scanner : ReadScanner) : ReadScanner := { scanner with closed := true, root := none }

/-- The tests of a slot in `_next`: it is visible, and the expression matches its entry. -/
def accepts (rounds : Nat) (layer : ReadLayer) (expression : Option FilterExpression)
    (ordinal : Nat) : Except String Bool :=
  if layer.isVisible ordinal then
    match expression with
    | none => pure true
    | some expression => do
        let entry ← layer.run.memtable.entryRefAt ordinal
        (· = some true) <$> matchesExpression rounds entry.payload expression
  else pure false

/-- The inner loop of `_next`, with so many slots of the run left. -/
def scanSlots (rounds : Nat) (control : QueryControl) (layer : ReadLayer) :
    Nat → List Nat → Exec ReadScanner String (List Nat)
  | 0, ordinals => pure ordinals
  | slots + 1, ordinals => do
      let scanner ← read
      if ordinals.length < scanner.batchSize then do
        lift (control.checkpoint (scanner.visitedSlots + 1) scanner.visitedSlots)
        ensure (¬ scanner.visitedSlots ≥ control.maxCandidates)
          "query candidate resource limit exceeded"
        update fun s => { s with visitedSlots := s.visitedSlots + 1, ordinal := s.ordinal + 1 }
        let accepted ← lift (accepts rounds layer scanner.expression scanner.ordinal)
        scanSlots rounds control layer slots
          (if accepted then ordinals ++ [scanner.ordinal] else ordinals)
      else pure ordinals

/-- The outer loop of `_next`, with these layers left. An empty selection has come to the end of
its run (`scan_slots_ok`), so the loop goes on with the next one. -/
def nextFrom (rounds : Nat) (control : QueryControl) (root : ReadGeneration) :
    List ReadLayer → Exec ReadScanner String (Option ScanBatch)
  | [] => do
      update fun s => { s with root := none }
      pure none
  | layer :: layers => do
      let scanner ← read
      let ordinals ← scanSlots rounds control layer
        (layer.run.memtable.slotCount - scanner.ordinal) []
      update fun s =>
        if s.ordinal = layer.run.memtable.slotCount then
          { s with layer := s.layer + 1, ordinal := 0 }
        else s
      if ordinals.length > 0 then do
        update fun s => if s.layer = root.layers.length then { s with root := none } else s
        pure (some ⟨root, scanner.layer, ordinals⟩)
      else nextFrom rounds control root layers

/-- `_next`. -/
def nextOpen (rounds : Nat) (control : QueryControl) :
    Exec ReadScanner String (Option ScanBatch) := do
  let scanner ← read
  match scanner.root with
  | none => pure none
  | some root => nextFrom rounds control root (root.layers.drop scanner.layer)

/-- `next`: an error closes the cursor. -/
def next (rounds : Nat) (control : QueryControl) :
    Exec ReadScanner String (Option ScanBatch) := do
  let scanner ← read
  ensure (¬ scanner.closed) "scanner is closed"
  catching
    (do
      lift (control.checkpoint 0 0)
      nextOpen rounds control)
    fun error => do
      update close
      raise error

/-- `Int.MAX`. -/
def intMax : Int := 2 ^ 63 - 1

/-- The control of `next_batch`: nobody cancels it, it has no deadline. -/
def unlimited : QueryControl := ⟨intMax, fun _ => false, fun _ => false⟩

/-- `next_batch`. -/
def nextBatch (rounds : Nat) : Exec ReadScanner String (Option ScanBatch) :=
  next rounds unlimited

/-- Calls of `next_batch` until one returns nothing, with the batches before. -/
inductive Drains (rounds : Nat) : ReadScanner → List ScanBatch → ReadScanner → Prop where
  | done {scanner ended : ReadScanner} (hnext : nextBatch rounds scanner = (.ok none, ended)) :
      Drains rounds scanner [] ended
  | batch {scanner following ended : ReadScanner} {first : ScanBatch} {rest : List ScanBatch}
      (hnext : nextBatch rounds scanner = (.ok (some first), following))
      (hrest : Drains rounds following rest ended) : Drains rounds scanner (first :: rest) ended

/-! ## What is left to return -/

/-- The filter holds for the entry, or there is none. -/
def matching (expression : Option FilterExpression) (entry : MemTableEntry) : Bool :=
  expression.all (·.holds entry.payload)

/-- The slot passes the tests of `_next`. -/
def passes (layer : ReadLayer) (expression : Option FilterExpression) (ordinal : Nat) : Bool :=
  layer.isVisible ordinal && (layer.table.entries[ordinal]?).any (matching expression)

/-- The slots from one on that pass. -/
def passing (layer : ReadLayer) (expression : Option FilterExpression) (ordinal slots : Nat) :
    List Nat :=
  (range' ordinal slots).filter (passes layer expression)

/-- The rows that are left from a slot of the first layer on. -/
def pendingFrom (expression : Option FilterExpression) :
    List ReadLayer → Nat → List MemTableEntry
  | [], _ => []
  | layer :: layers, ordinal =>
      layer.table.rowsAt (passing layer expression ordinal (layer.table.slotCount - ordinal)) ++
        (layers.flatMap ReadGeneration.rowsOf).filter (matching expression)

/-- The rows that are left from where the cursor stands. -/
def pending (scanner : ReadScanner) : List MemTableEntry :=
  match scanner.root with
  | none => []
  | some root =>
      pendingFrom scanner.expression (root.layers.drop scanner.layer) scanner.ordinal

/-- The rounds suffice for the matcher on every entry of the root. -/
def Suffices (rounds : Nat) (root : ReadGeneration) (expression : Option FilterExpression) : Prop :=
  ∀ layer ∈ root.layers, ∀ entry ∈ layer.table.entries, ∀ e ∈ expression,
    matchesExpression rounds entry.payload e = .ok (some (e.holds entry.payload))

/-- The slots of the first layers. -/
def slotsBefore (root : ReadGeneration) (layer : Nat) : Nat :=
  ((root.layers.take layer).map (·.table.slotCount)).sum

/-- A cursor of an open scan of a root: it has visited the slots it stands behind. -/
structure Cursor (root : ReadGeneration) (scanner : ReadScanner) : Prop where
  open_ : scanner.closed = false
  batch_pos : 0 < scanner.batchSize
  root_eq : scanner.root = some root ∨ scanner.root = none
  ordinal_le : ∀ layer, root.layers[scanner.layer]? = some layer →
    scanner.ordinal ≤ layer.table.slotCount
  visited_eq : scanner.visitedSlots = slotsBefore root scanner.layer + scanner.ordinal

variable {layers : List ReadLayer} {s : ReadScanner}

section Layer

variable {layer : ReadLayer} {expression : Option FilterExpression}

theorem passing_all (hsorted : layer.Sorted) :
    passing layer expression 0 layer.table.slotCount = layer.picked (matching expression) := by
  have hvisible : layer.visibleOrdinals =
      (range layer.table.slotCount).filter layer.isVisible := by
    rw [ReadLayer.visible_ordinals_eq hsorted]
    refine filter_congr fun o ho => ?_
    rw [Bool.eq_iff_iff, ReadLayer.is_visible_iff hsorted, ReadLayer.visible_ordinals_eq hsorted,
      mem_filter, and_iff_right ho]
  unfold passing ReadLayer.picked
  rw [hvisible, filter_filter, ← range_eq_range']
  exact filter_congr fun o _ => Bool.and_comm _ _

theorem pending_from_zero (hsorted : ∀ layer ∈ layers, layer.Sorted) :
    pendingFrom expression layers 0 =
      (layers.flatMap ReadGeneration.rowsOf).filter (matching expression) := by
  cases layers with
  | nil => rfl
  | cons layer layers =>
      rw [pendingFrom, Nat.sub_zero, passing_all (hsorted layer mem_cons_self),
        ReadLayer.rows_at_picked, flatMap_cons, filter_append]

theorem pending_of_root {root : ReadGeneration} (hroot : s.root = some root) :
    s.pending = pendingFrom s.expression (root.layers.drop s.layer) s.ordinal := by
  simp only [pending, hroot]

theorem pending_from_append {ordinal taken : Nat} (hle : ordinal + taken ≤ layer.table.slotCount) :
    pendingFrom expression (layer :: layers) ordinal =
      layer.table.rowsAt (passing layer expression ordinal taken) ++
        pendingFrom expression (layer :: layers) (ordinal + taken) := by
  have hrange : range' ordinal (layer.table.slotCount - ordinal) =
      range' ordinal taken ++
        range' (ordinal + taken) (layer.table.slotCount - (ordinal + taken)) := by
    rw [range'_append_1]
    congr 1
    omega
  simp only [pendingFrom, passing, MemTable.rowsAt, hrange, filter_append,
    filterMap_append, append_assoc]

theorem pending_from_end (hsorted : ∀ layer ∈ layers, layer.Sorted) :
    pendingFrom expression (layer :: layers) layer.table.slotCount =
      pendingFrom expression layers 0 := by
  rw [pending_from_zero hsorted, pendingFrom, Nat.sub_self]
  rfl

/-- The tests of a slot, with rounds that suffice. -/
theorem accepts_ok {rounds ordinal : Nat} (hordinal : ordinal < layer.table.slotCount)
    (hrounds : ∀ entry ∈ layer.table.entries, ∀ e ∈ expression,
      matchesExpression rounds entry.payload e = .ok (some (e.holds entry.payload))) :
    accepts rounds layer expression ordinal = .ok (passes layer expression ordinal) := by
  have hget := getElem?_eq_getElem hordinal
  have hentry : layer.run.memtable.entryRefAt ordinal = .ok (layer.table.entries[ordinal]) := by
    unfold MemTable.entryRefAt
    rw [hget]
    rfl
  unfold accepts passes
  cases layer.isVisible ordinal with
  | false => rfl
  | true =>
      rw [if_pos rfl, Bool.true_and, hget, Option.any_some]
      cases expression with
      | none => rfl
      | some e =>
          have hmatch := hrounds _ (getElem_mem hordinal) e rfl
          refine bind_ok.2 ⟨_, hentry, map_ok.2 ⟨_, hmatch, ?_⟩⟩
          show decide (some (e.holds _) = some true) = e.holds _
          cases e.holds (layer.table.entries[ordinal]).payload <;> rfl

end Layer

/-! ## The loops -/

theorem unlimited_checkpoint (moment visited : Nat) :
    unlimited.checkpoint moment visited = .ok () := by
  refine bind_ok.2 ⟨(), require_ok.2 (by omega), ?_⟩
  split <;> rfl

/-- The inner loop takes slots until none is left or the batch is full. -/
theorem scan_slots_ok {rounds : Nat} {layer : ReadLayer} {slots : Nat} {ordinals : List Nat}
    {s : ReadScanner} (hslots : s.ordinal + slots = layer.table.slotCount)
    (hvisited : s.visitedSlots + slots ≤ intMax)
    (hrounds : ∀ entry ∈ layer.table.entries, ∀ e ∈ s.expression,
      matchesExpression rounds entry.payload e = .ok (some (e.holds entry.payload)))
    (hlength : ordinals.length ≤ s.batchSize) :
    ∃ taken, taken ≤ slots ∧
      scanSlots rounds unlimited layer slots ordinals s =
        (.ok (ordinals ++ passing layer s.expression s.ordinal taken),
          { s with ordinal := s.ordinal + taken, visitedSlots := s.visitedSlots + taken }) ∧
      (ordinals ++ passing layer s.expression s.ordinal taken).length ≤ s.batchSize ∧
      (taken = slots ∨
        (ordinals ++ passing layer s.expression s.ordinal taken).length = s.batchSize) := by
  have hnone : ordinals ++ passing layer s.expression s.ordinal 0 = ordinals :=
    append_nil ordinals
  induction slots generalizing s ordinals with
  | zero =>
      refine ⟨0, Nat.le_refl 0, ?_, ?_, .inl rfl⟩ <;> rw [hnone]
      · rfl
      · exact hlength
  | succ slots ih =>
      by_cases hfull : (ordinals.length : Int) < s.batchSize
      case neg =>
        refine ⟨0, Nat.zero_le _, ?_, ?_, .inr ?_⟩ <;> rw [hnone]
        · rw [scanSlots, read_bind, if_neg hfull]
          rfl
        · exact hlength
        · omega
      have hordinal : s.ordinal < layer.table.slotCount := by omega
      have haccepts := accepts_ok hordinal hrounds
      -- the state and the selection behind this slot
      let s' : ReadScanner :=
        { s with visitedSlots := s.visitedSlots + 1, ordinal := s.ordinal + 1 }
      have hstep : scanSlots rounds unlimited layer (slots + 1) ordinals s =
          scanSlots rounds unlimited layer slots
            (if passes layer s.expression s.ordinal then ordinals ++ [s.ordinal] else ordinals)
            s' := by
        rw [scanSlots, read_bind, if_pos hfull,
          lift_ok_bind (unlimited_checkpoint _ s.visitedSlots)]
        rw [bind_of_ok (ensure_of (by
          show ¬ (s.visitedSlots : Int) ≥ intMax
          omega) _ s)]
        rw [update_bind, lift_ok_bind haccepts]
      have hselected : (if passes layer s.expression s.ordinal then ordinals ++ [s.ordinal]
          else ordinals) = ordinals ++ passing layer s.expression s.ordinal 1 := by
        unfold passing
        rw [range'_one, filter_cons, filter_nil]
        split <;> simp
      have hlength' : ((ordinals ++ passing layer s.expression s.ordinal 1).length : Int) ≤
          s.batchSize := by
        rw [← hselected]
        split
        · rw [length_append, length_singleton]
          omega
        · exact hlength
      obtain ⟨taken, htaken, hrun, hle, hend⟩ :=
        @ih (ordinals ++ passing layer s.expression s.ordinal 1) s'
        (by show s.ordinal + 1 + slots = _; omega)
        (by show ((s.visitedSlots + 1 : Nat) : Int) + slots ≤ _; push_cast; omega)
        hrounds hlength' (append_nil _)
      have hpassing : ordinals ++ passing layer s.expression s.ordinal 1 ++
          passing layer s.expression (s.ordinal + 1) taken =
            ordinals ++ passing layer s.expression s.ordinal (taken + 1) := by
        unfold passing
        rw [append_assoc, ← filter_append, range'_append_1, Nat.add_comm 1 taken]
      refine ⟨taken + 1, by omega, ?_, ?_, ?_⟩
      · rw [hstep, hselected, hrun]
        show (Except.ok _, _) = _
        rw [show s'.ordinal = s.ordinal + 1 from rfl, show s'.expression = s.expression from rfl,
          hpassing]
        congr 2
        · exact Nat.add_right_comm _ _ _
        · exact Nat.add_right_comm _ _ _
      · rw [← hpassing]
        exact hle
      · rw [← hpassing]
        exact hend.imp_left (congrArg (· + 1))

/-- What a call does to a cursor: it returns nothing, and nothing was left, or a batch from the
front of what was left, and the cursor stands behind it. -/
def Advances (root : ReadGeneration) (before : ReadScanner)
    (outcome : Except String (Option ScanBatch) × ReadScanner) : Prop :=
  (outcome.1 = .ok none ∧ before.pending = []) ∨
    ∃ batch, outcome.1 = .ok (some batch) ∧ 0 < batch.rowCount ∧
      batch.rowCount ≤ before.batchSize ∧ batch.root = root ∧
      batch.entries = .ok batch.rows ∧ before.pending = batch.rows ++ outcome.2.pending ∧
      Cursor root outcome.2 ∧ outcome.2.batchSize = before.batchSize ∧
      outcome.2.expression = before.expression

section Root

variable {root : ReadGeneration} {rounds : Nat} {expression : Option FilterExpression}

/-- Slots of a run of the root make a batch whose rows can be read. -/
theorem batch_entries {layer : ReadLayer} {i : Nat} {ordinals : List Nat}
    (hlayer : root.layers[i]? = some layer)
    (hordinals : ∀ o ∈ ordinals, o < layer.table.slotCount) :
    (ScanBatch.mk root i ordinals).rows = layer.table.rowsAt ordinals ∧
      (ScanBatch.mk root i ordinals).entries = .ok (ScanBatch.mk root i ordinals).rows := by
  have hrows : (ScanBatch.mk root i ordinals).rows = layer.table.rowsAt ordinals := by
    rw [ScanBatch.rows, hlayer]
    rfl
  refine ⟨hrows, ?_⟩
  have hread : List.Forall₂ (fun o entry => layer.table.entries[o]? = some entry) ordinals
      (layer.table.rowsAt ordinals) := by
    unfold MemTable.rowsAt
    induction ordinals with
    | nil => exact .nil
    | cons o ordinals ih =>
        obtain ⟨ho, hrest⟩ := forall_mem_cons.1 hordinals
        have hget := getElem?_eq_getElem ho
        rw [filterMap_cons_some hget]
        exact .cons hget (ih hrest (by rw [ScanBatch.rows, hlayer]; rfl))
  obtain ⟨hlength, hget⟩ := forall₂_iff_get.1 hread
  rw [hrows, ScanBatch.entries, map_m_ok, forall₂_iff_get]
  refine ⟨(length_range).trans hlength, fun row hrow hrow' => ?_⟩
  have hrow : row < ordinals.length := by simpa [ScanBatch.rowCount] using hrow
  have hentry := hget row hrow hrow'
  simp only [get_eq_getElem, getElem_range] at hentry ⊢
  have hinside : ¬ ((row : Int) < 0 ∨ (row : Int) ≥ (ScanBatch.mk root i ordinals).rowCount) := by
    show ¬ ((row : Int) < 0 ∨ (row : Int) ≥ (ordinals.length : Nat))
    omega
  refine bind_ok.2 ⟨(), require_ok.2 hinside, ?_⟩
  show (match root.layers[i]?, ordinals[(row : Int).toNat]? with
    | some layer, some ordinal => layer.run.memtable.entryRefAt ordinal
    | _, _ => throw "memtable ordinal out of bounds") = _
  rw [hlayer, Int.toNat_natCast, getElem?_eq_getElem hrow]
  exact entry_ref_at_ok hentry

theorem slots_before_succ {layer : ReadLayer} {i : Nat} (hlayer : root.layers[i]? = some layer) :
    slotsBefore root (i + 1) = slotsBefore root i + layer.table.slotCount := by
  unfold slotsBefore
  rw [take_add_one, hlayer]
  simp

theorem slots_before_le (root : ReadGeneration) (i : Nat) :
    slotsBefore root i ≤ slotsBefore root root.layers.length := by
  unfold slotsBefore
  rw [take_length]
  conv_rhs => rw [← take_append_drop i root.layers, map_append, sum_append]
  exact Nat.le_add_right _ _

/-- The outer loop, from any cursor. -/
theorem next_from_ok (hsorted : ∀ layer ∈ root.layers, layer.Sorted)
    (hslots : slotsBefore root root.layers.length ≤ intMax)
    (hlayers : root.layers.drop s.layer = layers) (hcursor : Cursor root s)
    (hroot : s.root = some root) (hrounds : Suffices rounds root s.expression) :
    Advances root s (nextFrom rounds unlimited root layers s) := by
  induction layers generalizing s with
  | nil =>
      refine .inl ⟨rfl, ?_⟩
      rw [pending_of_root hroot, hlayers, pendingFrom]
  | cons layer layers ih =>
      have hlayer : root.layers[s.layer]? = some layer := by
        have := congrArg (·[0]?) hlayers
        simpa [getElem?_drop] using this
      have hrest : root.layers.drop (s.layer + 1) = layers := by
        rw [← tail_drop, hlayers]
        rfl
      have hmem := mem_of_getElem? hlayer
      have hsortedRest : ∀ layer ∈ layers, layer.Sorted := fun l hl =>
        hsorted l (mem_of_mem_drop (hrest ▸ hl))
      have hle := hcursor.ordinal_le layer hlayer
      have hcount := slots_before_succ hlayer
      have htotal := slots_before_le root (s.layer + 1)
      have hvisited := hcursor.visited_eq
      have hpos := hcursor.batch_pos
      obtain ⟨taken, htaken, hrun, hlength, hend⟩ := @scan_slots_ok _ layer
        (layer.table.slotCount - s.ordinal) [] s (by omega) (by omega) (hrounds layer hmem)
        (by simp; omega)
      simp only [nil_append] at hrun hlength hend
      -- the rows of the slots that were taken come first
      have hpending : s.pending = layer.table.rowsAt (passing layer s.expression s.ordinal taken) ++
          pendingFrom s.expression (layer :: layers) (s.ordinal + taken) := by
        rw [pending_of_root hroot, hlayers]
        exact pending_from_append (by omega)
      have hordinals : ∀ o ∈ passing layer s.expression s.ordinal taken,
          o < layer.table.slotCount := by
        intro o ho
        have := mem_range'_1.1 (mem_filter.1 ho).1
        omega
      obtain ⟨hrows, hentries⟩ := batch_entries hlayer hordinals
      unfold nextFrom
      rw [read_bind, bind_of_ok hrun, update_bind]
      by_cases hdone : s.ordinal + taken = layer.table.slotCount
      · rw [if_pos hdone]
        rw [hdone, pending_from_end hsortedRest] at hpending
        -- the cursor stands before the next run
        let s' : ReadScanner := { s with
          layer := s.layer + 1
          ordinal := 0
          visitedSlots := s.visitedSlots + taken }
        have hcursor' : Cursor root s' := by
          refine ⟨hcursor.open_, hcursor.batch_pos, hcursor.root_eq, fun _ _ => Nat.zero_le _, ?_⟩
          show s.visitedSlots + taken = slotsBefore root (s.layer + 1) + 0
          omega
        have hpending' : s'.pending = pendingFrom s.expression layers 0 := by
          rw [pending_of_root (s := s') hroot]
          exact congrArg (pendingFrom s.expression · 0) hrest
        by_cases hfound : (passing layer s.expression s.ordinal taken).length > 0
        · rw [if_pos hfound, update_bind]
          refine .inr ⟨_, rfl, hfound, hlength, rfl, hentries, ?_, ?_, ?_, ?_⟩
          · rw [hrows, hpending]
            congr 1
            show _ = (if s.layer + 1 = root.layers.length then { s' with root := none }
              else s').pending
            split
            case isTrue hlast =>
              rw [← hrest, hlast, drop_length]
              rfl
            case isFalse => exact hpending'.symm
          · show Cursor root (if s.layer + 1 = root.layers.length then { s' with root := none }
              else s')
            split
            case isTrue =>
              exact ⟨hcursor'.open_, hcursor'.batch_pos, .inr rfl, hcursor'.ordinal_le,
                hcursor'.visited_eq⟩
            case isFalse => exact hcursor'
          · show (if s.layer + 1 = root.layers.length then { s' with root := none }
              else s').batchSize = _
            split <;> rfl
          · show (if s.layer + 1 = root.layers.length then { s' with root := none }
              else s').expression = _
            split <;> rfl
        · rw [if_neg hfound]
          have hempty : passing layer s.expression s.ordinal taken = [] :=
            length_eq_zero_iff.1 (by omega)
          have hsame : s.pending = s'.pending := by
            rw [hpending, hempty, hpending']
            rfl
          have hnext := ih (s := s') hrest hcursor' hroot hrounds
          unfold Advances at hnext ⊢
          rw [hsame]
          exact hnext
      · rw [if_neg hdone]
        have hfull := hend.resolve_left (by omega)
        have hfound : (passing layer s.expression s.ordinal taken).length > 0 := by omega
        have hinside : s.layer ≠ root.layers.length :=
          (List.getElem?_eq_some_iff.1 hlayer).1.ne
        rw [if_pos hfound, update_bind, if_neg hinside]
        refine .inr ⟨_, rfl, hfound, hlength, rfl, hentries, ?_, ?_, rfl, rfl⟩
        · rw [hrows, hpending]
          congr 1
          rw [pending_of_root (by exact hroot)]
          exact congrArg (pendingFrom s.expression · (s.ordinal + taken)) hlayers.symm
        · refine ⟨hcursor.open_, hcursor.batch_pos, hcursor.root_eq, fun l hl => ?_, ?_⟩
          · obtain rfl : layer = l := Option.some.inj (hlayer.symm.trans hl)
            show s.ordinal + taken ≤ layer.table.slotCount
            omega
          · show s.visitedSlots + taken = slotsBefore root s.layer + (s.ordinal + taken)
            omega

/-- A call of `next_batch` from any cursor. -/
theorem next_batch_ok (hsorted : ∀ layer ∈ root.layers, layer.Sorted)
    (hslots : slotsBefore root root.layers.length ≤ intMax) (hcursor : Cursor root s)
    (hrounds : Suffices rounds root s.expression) :
    Advances root s (nextBatch rounds s) := by
  have hopen : Advances root s (nextOpen rounds unlimited s) := by
    unfold nextOpen
    rw [read_bind]
    cases hroot : s.root with
    | none =>
        refine .inl ⟨rfl, ?_⟩
        simp only [pending, hroot]
    | some root' =>
        obtain rfl : root' = root := by
          obtain h | h := hcursor.root_eq
          · exact Option.some.inj (hroot.symm.trans h)
          · rw [hroot] at h
            cases h
        exact next_from_ok hsorted hslots rfl hcursor hroot hrounds
  -- a call that returns is not seen by the handler
  have hcall : nextBatch rounds s = nextOpen rounds unlimited s := by
    have hclosed : ¬ s.closed = true := by
      rw [hcursor.open_]
      decide
    unfold nextBatch next
    have hcheck : unlimited.checkpoint 0 0 = .ok () := unlimited_checkpoint 0 0
    rw [read_bind, bind_of_ok (ensure_of hclosed _ s), lift_ok_bind hcheck,
      catching]
    rcases hrun : nextOpen rounds unlimited s with ⟨_ | found, s'⟩
    · rw [hrun] at hopen
      obtain ⟨h, -⟩ | ⟨batch, h, -⟩ := hopen <;> cases h
    · rfl
  rw [hcall]
  exact hopen

/-- A scan to the end returns what is left, in batches that are not empty and not too long. -/
theorem drains_ok (hsorted : ∀ layer ∈ root.layers, layer.Sorted)
    (hslots : slotsBefore root root.layers.length ≤ intMax) (hcursor : Cursor root s)
    (hrounds : Suffices rounds root s.expression) :
    ∃ batches ended, Drains rounds s batches ended ∧
      (∀ batch ∈ batches, 0 < batch.rowCount ∧ batch.rowCount ≤ s.batchSize ∧
        batch.entries = .ok batch.rows) ∧
      batches.flatMap ScanBatch.rows = s.pending := by
  induction hleft : s.pending.length using Nat.strong_induction_on generalizing s with
  | _ left ih =>
    have hnext := next_batch_ok hsorted hslots hcursor hrounds
    rcases hrun : nextBatch rounds s with ⟨result, s'⟩
    rw [hrun] at hnext
    obtain ⟨hnone, hempty⟩ | ⟨batch, hsome, hpos, hsize, -, hentries, hpending, hcursor', hbatch,
      hexpression⟩ := hnext
    · cases hnone
      exact ⟨[], s', .done hrun, nofun, hempty.symm⟩
    · cases hsome
      have hrows : batch.rowCount = batch.rows.length := by
        rw [ScanBatch.entries, map_m_ok] at hentries
        exact (length_range).symm.trans hentries.length_eq
      have hless : s'.pending.length < left := by
        rw [← hleft, hpending, length_append]
        show s'.pending.length < batch.rows.length + s'.pending.length
        omega
      obtain ⟨batches, ended, hdrains, hall, hflat⟩ :=
        ih _ hless hcursor' (hexpression.symm ▸ hrounds) rfl
      refine ⟨batch :: batches, ended, .batch hrun hdrains,
        forall_mem_cons.2 ⟨⟨hpos, hsize, hentries⟩, fun b hb => ?_⟩, ?_⟩
      · rw [← hbatch]
        exact hall b hb
      · rw [flatMap_cons, hflat, hpending]

end Root

theorem exists_suffices (root : ReadGeneration) {expression : Option FilterExpression}
    (hvalid : ∀ e ∈ expression, e.validate = .ok ()) :
    ∃ enough, ∀ rounds, enough ≤ rounds → Suffices rounds root expression := by
  refine enough_for_all root.layers fun layer _ => enough_for_all layer.table.entries
    fun entry _ => ?_
  cases expression with
  | none => exact ⟨0, fun _ _ => nofun⟩
  | some e =>
      obtain ⟨enough, henough⟩ := matches_expression_ok entry.payload (hvalid e rfl)
      refine ⟨enough, fun rounds hrounds e' he' => ?_⟩
      obtain rfl := Option.some.inj he'
      exact henough rounds hrounds

end ReadScanner

open ReadScanner

/-- A scan of a captured root ends. Its batches are not empty, none is longer than the batch size,
and one behind the other they are the visible rows that the filter holds for, in the order of the
runs and their slots: each live point of the table that the filter holds for stands in them once,
and nothing else does. -/
theorem scan_visits_rows_once {reader : Reader} (h : ReaderReachable reader) {config : ReadConfig}
    {generation : Nat} {catalog : Option Nat} {pinned : Except String Unit}
    {cache : ReadGenerationCache} {root : ReadGeneration}
    (hrun : reader.cache.acquire config generation reader.sequence reader.table catalog pinned =
      (cache, .ok root))
    (hslots : slotsBefore root root.layers.length ≤ intMax) {batchSize : Int}
    {expression : Option FilterExpression} {scanner : ReadScanner}
    (hcreate : ReadScanner.create root batchSize expression = .ok scanner) :
    ∃ enough, ∀ rounds, enough ≤ rounds → ∃ batches ended,
      Drains rounds scanner batches ended ∧
      (∀ batch ∈ batches, 0 < batch.rowCount ∧ batch.rowCount ≤ batchSize ∧
        batch.entries = .ok batch.rows) ∧
      batches.flatMap ScanBatch.rows = root.rows.filter (matching expression) ∧
      ((batches.flatMap ScanBatch.rows).map (·.id)).Nodup ∧
      ∀ entry, entry ∈ batches.flatMap ScanBatch.rows ↔
        reader.table.state entry.id = some entry ∧ entry.tombstone = false ∧
          matching expression entry = true := by
  have hroot := acquire_over h hrun
  have hlayered := hroot.shows.layered
  have hsorted : ∀ layer ∈ root.layers, layer.Sorted := fun layer hlayer =>
    (layered_forall hlayered layer hlayer).2
  obtain ⟨_, hpositive, hrest⟩ := bind_ok.1 hcreate
  obtain ⟨_, hvalidated, hscanner⟩ := bind_ok.1 hrest
  obtain rfl := pure_ok.1 hscanner
  have hbatch : 0 < batchSize := by
    have := require_ok.1 hpositive
    omega
  have hvalid : ∀ e ∈ expression, e.validate = .ok () := fun e he =>
    check_each_ok.1 hvalidated e (Option.mem_toList.2 he)
  obtain ⟨enough, henough⟩ := exists_suffices root hvalid
  refine ⟨enough, fun rounds hrounds => ?_⟩
  obtain ⟨batches, ended, hdrains, hall, hflat⟩ := drains_ok
    (s := ⟨some root, expression, batchSize, 0, 0, false, 0⟩) hsorted hslots
    ⟨rfl, hbatch, .inl rfl, fun _ _ => Nat.zero_le _, rfl⟩ (henough rounds hrounds)
  have hrows : batches.flatMap ScanBatch.rows = root.rows.filter (matching expression) :=
    hflat.trans (pending_from_zero hsorted)
  refine ⟨batches, ended, hdrains, hall, hrows, ?_, fun entry => ?_⟩
  · rw [hrows]
    exact (ReadGeneration.rows_nodup hlayered).sublist (filter_sublist.map _)
  · rw [hrows, mem_filter]
    show (entry ∈ root.layers.flatMap ReadGeneration.rowsOf ∧ _) ↔ _
    rw [ReadGeneration.mem_rows hlayered, hroot.shows.newest_eq, and_assoc]

/-- A scan in batches of one row, of a root over a base and a head, with a filter that rejects a
row. -/
theorem scan_visits_rows_once_sample : ∃ cache root scanner,
    sampleReader.cache.acquire ⟨1, 0, .ok ()⟩ 0 sampleReader.sequence sampleReader.table none
      (.ok ()) = (cache, .ok root) ∧
    ReadScanner.create root 1 (some sampleFilter) = .ok scanner ∧
    ∃ rounds batches ended, Drains rounds scanner batches ended ∧
      (batches.flatMap ScanBatch.rows).map (·.id) = [3, 2] := by
  have hok : (sampleReader.cache.acquire ⟨1, 0, .ok ()⟩ 0 sampleReader.sequence
      sampleReader.table none (.ok ())).2.toOption.any (fun root =>
        decide (slotsBefore root root.layers.length ≤ 5) &&
          decide ((root.rows.filter (matching (some sampleFilter))).map (·.id) = [3, 2])) =
      true := by
    decide +kernel
  have hcreate : ∀ root, ReadScanner.create root 1 (some sampleFilter) =
      .ok ⟨some root, some sampleFilter, 1, 0, 0, false, 0⟩ := fun _ => rfl
  cases hout : sampleReader.cache.acquire ⟨1, 0, .ok ()⟩ 0 sampleReader.sequence
      sampleReader.table none (.ok ()) with
  | mk cache result =>
      rw [hout] at hok
      cases result with
      | error e => cases hok
      | ok root =>
          obtain ⟨hslots, hids⟩ := Bool.and_eq_true_iff.1 hok
          have hslots := of_decide_eq_true hslots
          obtain ⟨enough, hscan⟩ := scan_visits_rows_once sample_reader_reachable hout
            (by unfold intMax; omega) (hcreate root)
          obtain ⟨batches, ended, hdrains, -, hrows, -⟩ := hscan enough (Nat.le_refl _)
          refine ⟨cache, root, _, rfl, hcreate root, enough, batches, ended, hdrains, ?_⟩
          rw [hrows]
          exact of_decide_eq_true hids

end Api

end Akasha

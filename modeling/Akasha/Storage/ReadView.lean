import Akasha.Storage.ReadGeneration
import Mathlib.Data.List.Sort

/-!
# What a published root shows

The chain of runs under a root denotes one map: the newest state of every point. `Layered` says
that each layer hides exactly the slots that newer runs have states for; under it, `find` and the
visible rows read that map. The rest of the module follows the publisher: what a record, a seal,
a merge and a capture do to the map, and that over every run of a writer with its publisher a
captured root shows the writer's table.
-/

namespace Akasha.Storage

open Lib Index List MemTable

/-- The newest state of a point in runs that are listed oldest first. -/
def newest : List MemTable → Int64 → Option MemTableEntry
  | [], _ => none
  | table :: tables, id => (newest tables id).or (table.state id)

theorem newest_append (older newer : List MemTable) (id : Int64) :
    newest (older ++ newer) id = (newest newer id).or (newest older id) := by
  induction older with
  | nil => simp [newest]
  | cons table older ih =>
      rw [cons_append, newest, newest, ih, Option.or_assoc]

/-! ## Ascending slots -/

theorem mem_drop_while_lt {slots : List Nat} {o o' : Nat} (h : o ≤ o') :
    o' ∈ slots.dropWhile (· < o) ↔ o' ∈ slots := by
  induction slots with
  | nil => rfl
  | cons slot slots ih =>
      rw [dropWhile_cons]
      split
      · rename_i hlt
        have : o' ≠ slot := by
          have := of_decide_eq_true hlt
          omega
        rw [ih, mem_cons, or_iff_right this]
      · rfl

theorem head_drop_while_lt_iff {slots : List Nat} (hsorted : slots.Pairwise (· ≤ ·)) {o : Nat} :
    (slots.dropWhile (· < o)).head? = some o ↔ o ∈ slots := by
  induction slots with
  | nil => simp
  | cons slot slots ih =>
      obtain ⟨hle, hrest⟩ := pairwise_cons.1 hsorted
      rw [dropWhile_cons]
      split
      · rename_i hlt
        have : o ≠ slot := by
          have := of_decide_eq_true hlt
          omega
        rw [ih hrest, mem_cons, or_iff_right this]
      · rename_i hge
        have hge : o ≤ slot := by simpa using hge
        rw [head?_cons, Option.some.injEq, mem_cons]
        constructor
        · intro h
          exact .inl h.symm
        · rintro (h | h)
          · exact h.symm
          · exact le_antisymm (hle o h) hge

theorem drop_while_sorted {slots : List Nat} (hsorted : slots.Pairwise (· ≤ ·)) (o : Nat) :
    (slots.dropWhile (· < o)).Pairwise (· ≤ ·) :=
  hsorted.sublist (dropWhile_sublist _)

variable {layer : ReadLayer}

namespace ReadLayer

/-- A slot that a newer run shadows. -/
def Hidden (layer : ReadLayer) (o : Nat) : Prop :=
  o ∈ layer.sealedHidden ∨ o ∈ layer.headHidden

instance (layer : ReadLayer) (o : Nat) : Decidable (layer.Hidden o) :=
  inferInstanceAs (Decidable (_ ∨ _))

/-- The loop of `visible` keeps the live slots that neither list holds. -/
theorem visible_from_eq {table : MemTable} {sealedHidden head ordinals : List Nat}
    (hsealed : sealedHidden.Pairwise (· ≤ ·)) (hhead : head.Pairwise (· ≤ ·))
    (hordinals : ordinals.Pairwise (· < ·)) :
    visibleFrom table sealedHidden head ordinals =
      ordinals.filter fun o => table.isLiveAt o && !decide (o ∈ sealedHidden ∨ o ∈ head) := by
  induction ordinals generalizing sealedHidden head with
  | nil => rfl
  | cons o ordinals ih =>
      obtain ⟨hlt, hrest⟩ := pairwise_cons.1 hordinals
      rw [visibleFrom, filter_cons]
      cases hlive : table.isLiveAt o with
      | false =>
          rw [if_neg Bool.false_ne_true, ih hsealed hhead hrest]
          rfl
      | true =>
          have htail : visibleFrom table (sealedHidden.dropWhile (· < o))
              (head.dropWhile (· < o)) ordinals = ordinals.filter fun o =>
                table.isLiveAt o && !decide (o ∈ sealedHidden ∨ o ∈ head) := by
            rw [ih (drop_while_sorted hsealed o) (drop_while_sorted hhead o) hrest]
            refine filter_congr fun o' ho' => ?_
            have hle := (hlt o' ho').le
            simp only [mem_drop_while_lt hle]
          rw [if_pos rfl]
          simp only [head_drop_while_lt_iff hsealed, head_drop_while_lt_iff hhead, htail]
          by_cases hmem : o ∈ sealedHidden ∨ o ∈ head
          · rw [if_pos hmem, if_neg (by simp [hmem])]
          · rw [if_neg hmem, if_pos (by simp [hmem])]

/-- The shadowed slots of a layer are listed in order. -/
structure Sorted (layer : ReadLayer) : Prop where
  sealedHidden : layer.sealedHidden.Pairwise (· ≤ ·)
  headHidden : layer.headHidden.Pairwise (· ≤ ·)

/-- The visible slots are the live ones that nothing shadows. -/
theorem visible_ordinals_eq (h : layer.Sorted) :
    layer.visibleOrdinals = (range layer.run.memtable.entries.length).filter fun o =>
      layer.run.memtable.isLiveAt o && !decide (layer.Hidden o) := by
  have hlive : layer.run.memtable.liveOrdinals =
      (range layer.run.memtable.entries.length).filter layer.run.memtable.isLiveAt := rfl
  unfold visibleOrdinals visible
  split
  · rw [visible_from_eq h.sealedHidden h.headHidden
      (hlive ▸ pairwise_lt_range.sublist filter_sublist), hlive, filter_filter]
    refine filter_congr fun o _ => ?_
    show _ = (_ && !decide (o ∈ layer.sealedHidden ∨ o ∈ layer.headHidden))
    cases layer.run.memtable.isLiveAt o
    · rfl
    · rw [Bool.true_and, Bool.and_true]
  · rename_i hclear
    have hnone : ∀ o, ¬ layer.Hidden o := by
      intro o
      unfold isShadowed at hclear
      simp only [gt_iff_lt, Bool.or_eq_true, decide_eq_true_eq, not_or, not_lt, nonpos_iff_eq_zero,
        length_eq_zero_iff] at hclear
      unfold Hidden
      rw [hclear.1, hclear.2]
      simp
    rw [hlive]
    refine filter_congr fun o _ => ?_
    rw [decide_eq_false (hnone o)]
    simp

end ReadLayer

/-! ## Layers that hide what newer runs hold -/

/-- The table of a layer. -/
abbrev ReadLayer.table (layer : ReadLayer) : MemTable :=
  layer.run.memtable

/-- Each layer hides the slots of the points that newer layers have states for. -/
def Layered : List ReadLayer → Prop
  | [] => True
  | layer :: layers =>
      layer.table.WellFormed ∧ layer.Sorted ∧
        (∀ o e, layer.table.entries[o]? = some e →
          (layer.Hidden o ↔ (newest (layers.map (·.table)) e.id).isSome = true)) ∧
        Layered layers

variable {layers : List ReadLayer}

theorem layered_forall (h : Layered layers) :
    ∀ layer ∈ layers, layer.table.WellFormed ∧ layer.Sorted := by
  induction layers with
  | nil => nofun
  | cons layer layers ih =>
      intro l hl
      rcases mem_cons.1 hl with rfl | hl
      · exact ⟨h.1, h.2.1⟩
      · exact ih h.2.2.2 l hl

namespace ReadGeneration

theorem filter_map_range {α : Type} (xs : List α) :
    (range xs.length).filterMap (xs[·]?) = xs := by
  induction xs with
  | nil => rfl
  | cons x xs ih =>
      rw [length_cons, range_succ_eq_map, filterMap_cons, filterMap_map]
      exact congrArg (x :: ·) ih

theorem rows_of_sublist (h : layer.Sorted) :
    (rowsOf layer).Sublist layer.table.entries := by
  have hsub : (rowsOf layer).Sublist ((range layer.table.entries.length).filterMap
      (layer.table.entries[·]?)) := by
    unfold rowsOf
    rw [ReadLayer.visible_ordinals_eq h]
    exact filter_sublist.filterMap _
  rwa [filter_map_range] at hsub

theorem mem_rows_of (h : layer.Sorted) {e : MemTableEntry} :
    e ∈ rowsOf layer ↔
      ∃ o, layer.table.entries[o]? = some e ∧ e.tombstone = false ∧ ¬ layer.Hidden o := by
  unfold rowsOf
  rw [ReadLayer.visible_ordinals_eq h]
  simp only [mem_filterMap, mem_filter, mem_range, Bool.and_eq_true,
    Bool.not_eq_true', decide_eq_false_iff_not]
  refine exists_congr fun o => ?_
  constructor
  · rintro ⟨⟨-, hlive, hhidden⟩, he⟩
    unfold MemTable.isLiveAt at hlive
    rw [he] at hlive
    exact ⟨he, by simpa using hlive, hhidden⟩
  · rintro ⟨he, hlive, hhidden⟩
    refine ⟨⟨(List.getElem?_eq_some_iff.1 he).1, ?_, hhidden⟩, he⟩
    unfold MemTable.isLiveAt
    rw [he, Option.any_some, hlive]
    rfl

/-- The rows of layers that hide each other's points are the live newest states. -/
theorem mem_rows (h : Layered layers) {e : MemTableEntry} :
    e ∈ layers.flatMap rowsOf ↔
      newest (layers.map (·.table)) e.id = some e ∧ e.tombstone = false := by
  induction layers with
  | nil => simp [newest]
  | cons layer layers ih =>
      obtain ⟨hwf, hsorted, hhidden, hrest⟩ := h
      rw [flatMap_cons, mem_append, mem_rows_of hsorted, ih hrest, map_cons, newest]
      cases hnew : newest (layers.map (·.table)) e.id with
      | none =>
          rw [Option.none_or, state_eq_some_iff hwf]
          constructor
          · rintro (⟨o, he, hlive, -⟩ | ⟨h, -⟩)
            · exact ⟨⟨mem_of_getElem? he, rfl⟩, hlive⟩
            · cases h
          · rintro ⟨⟨he, -⟩, hlive⟩
            obtain ⟨o, ho⟩ := mem_iff_getElem?.1 he
            refine .inl ⟨o, ho, hlive, fun hhid => ?_⟩
            have := (hhidden o e ho).1 hhid
            rw [hnew] at this
            cases this
      | some e' =>
          rw [Option.some_or]
          constructor
          · rintro (⟨o, he, -, hvisible⟩ | h)
            · exact absurd ((hhidden o e he).2 (by rw [hnew]; rfl)) hvisible
            · exact h
          · exact .inr

theorem rows_nodup (h : Layered layers) :
    ((layers.flatMap rowsOf).map (·.id)).Nodup := by
  induction layers with
  | nil => exact nodup_nil
  | cons layer layers ih =>
      obtain ⟨hwf, hsorted, hhidden, hrest⟩ := h
      rw [flatMap_cons, map_append, nodup_append]
      refine ⟨(MemTable.ids_nodup hwf).sublist ((rows_of_sublist hsorted).map _), ih hrest, ?_⟩
      intro id hid id' hid' heq
      obtain ⟨e, he, rfl⟩ := mem_map.1 hid
      obtain ⟨e', he', rfl⟩ := mem_map.1 hid'
      obtain ⟨o, ho, -, hvisible⟩ := (mem_rows_of hsorted).1 he
      refine hvisible ((hhidden o e ho).2 ?_)
      rw [heq, ((mem_rows hrest).1 he').1]
      rfl

/-- `find` reads the newest state of the layers it has passed. -/
theorem find_below_eq (hwf : ∀ layer ∈ layers, layer.table.WellFormed) (id : Int64) {n : Nat}
    (hn : n ≤ layers.length) :
    ((findBelow layers id n).bind fun place =>
        (layers[place.1]?).bind (·.run.memtable.entries[place.2]?)) =
      (newest ((layers.take n).map (·.table)) id).filter (!·.tombstone) := by
  induction n with
  | zero => rfl
  | succ n ih =>
      have hlayer : layers[n]? = some layers[n] := getElem?_eq_getElem (by omega)
      have hwf := hwf layers[n] (getElem_mem _)
      rw [findBelow, take_add_one, map_append, newest_append, hlayer]
      simp only [Option.toList_some, map_cons, map_nil, newest, Option.none_or]
      cases hordinal : layers[n].table.ordinalFor id with
      | none =>
          have hstate : layers[n].table.state id = none :=
            state_of_none (by unfold MemTable.slotFor; rw [hordinal]; rfl)
          rw [hstate, Option.none_or]
          exact ih (by omega)
      | some o =>
          obtain ⟨e, he, hid⟩ := (hwf.ordinals_iff id o).1 hordinal
          have hstate : layers[n].table.state id = some e :=
            state_of_slot ((MemTable.slot_for_iff hwf).2 ⟨he, hid⟩)
          have hlive : layers[n].run.memtable.isLiveAt o = !e.tombstone := by
            unfold MemTable.isLiveAt
            rw [he, Option.any_some]
          rw [hstate, Option.some_or]
          simp only [hlive]
          cases htomb : e.tombstone with
          | true => simp [Option.filter, htomb]
          | false => simp [Option.filter, htomb, hlayer, he]

theorem find_eq {root : ReadGeneration} (h : Layered root.layers) (id : Int64) :
    ((root.find id).bind fun place => root.entryAt place.1 place.2) =
      (newest (root.layers.map (·.table)) id).filter (!·.tombstone) := by
  have hfind := find_below_eq (fun layer hl => (layered_forall h layer hl).1) id le_rfl
  rwa [take_length] at hfind

end ReadGeneration

/-! ## Shadowing -/

theorem mem_hidden_ordinals {older newer : MemTable} (holder : older.WellFormed)
    (hnewer : newer.WellFormed) {o : Nat} :
    o ∈ hiddenOrdinals older newer ↔
      ∃ e, older.entries[o]? = some e ∧ (newer.state e.id).isSome = true := by
  unfold hiddenOrdinals MemTable.ordinalFor
  rw [mem_filterMap]
  constructor
  · rintro ⟨e', he', ho⟩
    obtain ⟨e, he, hid⟩ := (holder.ordinals_iff _ _).1 ho
    exact ⟨e, he, by rw [hid, (MemTable.state_eq_some_iff hnewer).2 ⟨he', rfl⟩]; rfl⟩
  · rintro ⟨e, he, hsome⟩
    obtain ⟨e', hstate⟩ := Option.isSome_iff_exists.1 hsome
    obtain ⟨he', hid⟩ := (MemTable.state_eq_some_iff hnewer).1 hstate
    exact ⟨e', he', (holder.ordinals_iff _ _).2 ⟨e, he, hid.symm⟩⟩

theorem mem_unique_from {unique ordinals : List Nat} {o : Nat} :
    o ∈ uniqueFrom unique ordinals ↔ o ∈ unique ∨ o ∈ ordinals := by
  induction ordinals generalizing unique with
  | nil => simp [uniqueFrom]
  | cons ordinal ordinals ih =>
      rw [uniqueFrom]
      split
      · rename_i hlast
        have hmem := mem_of_getLast? hlast
        rw [ih, mem_cons]
        constructor
        · exact fun h => h.imp_right .inr
        · rintro (h | rfl | h)
          · exact .inl h
          · exact .inl hmem
          · exact .inr h
      · rw [ih, mem_append, mem_singleton, mem_cons, or_assoc]

theorem unique_from_sorted {unique ordinals : List Nat}
    (h : (unique ++ ordinals).Pairwise (· ≤ ·)) : (uniqueFrom unique ordinals).Pairwise (· ≤ ·) := by
  induction ordinals generalizing unique with
  | nil => simpa [uniqueFrom] using h
  | cons ordinal ordinals ih =>
      rw [uniqueFrom]
      split
      · exact ih (h.sublist (List.Sublist.append_left (sublist_cons_self _ _) _))
      · exact ih (by rwa [append_assoc])

theorem mem_union {existing added : List Nat} {o : Nat} :
    o ∈ union existing added ↔ o ∈ existing ∨ o ∈ added := by
  unfold union
  rw [mem_unique_from, mem_mergeSort, mem_append]
  simp [or_comm]

theorem union_sorted (existing added : List Nat) :
    (union existing added).Pairwise (· ≤ ·) := by
  refine unique_from_sorted ?_
  rw [nil_append]
  exact pairwise_mergeSort' (· ≤ ·) _

/-- What a new run on top does to the layers below it: they hide its points too. -/
structure ReadLayer.Shadows (layer : ReadLayer) (newer : MemTable) (shadowed : ReadLayer) :
    Prop where
  run_eq : shadowed.run = layer.run
  sorted : shadowed.Sorted
  hidden_iff : ∀ o, shadowed.Hidden o ↔ layer.Hidden o ∨ o ∈ hiddenOrdinals layer.table newer

theorem shadow_shadows (h : layer.Sorted) (newer : MemTable) :
    layer.Shadows newer (layer.shadow newer) := by
  unfold ReadLayer.shadow
  simp only
  split
  · rename_i hnone
    refine ⟨rfl, h, fun o => ?_⟩
    rw [length_eq_zero_iff.1 hnone]
    simp
  · refine ⟨rfl, ⟨union_sorted _ _, h.headHidden⟩, fun o => ?_⟩
    unfold ReadLayer.Hidden
    rw [mem_union, or_right_comm]

theorem head_hidden_shadows (h : layer.Sorted) (newer : MemTable) :
    layer.Shadows newer { layer with
      headHidden := (layer.headHidden ++ hiddenOrdinals layer.table newer).mergeSort (· ≤ ·) } := by
  refine ⟨rfl, ⟨h.sealedHidden, pairwise_mergeSort' (· ≤ ·) _⟩, fun o => ?_⟩
  unfold ReadLayer.Hidden
  rw [mem_mergeSort, mem_append, or_assoc]

theorem shadows_tables {layers shadowed : List ReadLayer} {newer : MemTable}
    (h : List.Forall₂ (ReadLayer.Shadows · newer ·) layers shadowed) :
    shadowed.map (·.table) = layers.map (·.table) := by
  refine forall₂_map_eq h fun layer _ shadowed hs => ?_
  show shadowed.run.memtable = layer.run.memtable
  rw [hs.run_eq]

/-- A run is put on top of the layers that hide its points. -/
theorem layered_push {layers shadowed : List ReadLayer} {run : ReadRun} (h : Layered layers)
    (hrun : run.memtable.WellFormed)
    (hshadows : List.Forall₂ (ReadLayer.Shadows · run.memtable ·) layers shadowed) :
    Layered (shadowed ++ [⟨run, [], []⟩]) := by
  induction hshadows with
  | nil =>
      refine ⟨hrun, ⟨.nil, .nil⟩, fun o e _ => ?_, trivial⟩
      simp [newest, ReadLayer.Hidden]
  | cons hlayer hrest ih =>
      rename_i layer layer' layers shadowed
      obtain ⟨hwf, hsorted, hhidden, hlower⟩ := h
      have htable : layer'.table = layer.table := by
        show layer'.run.memtable = layer.run.memtable
        rw [hlayer.run_eq]
      refine ⟨htable ▸ hwf, hlayer.sorted, fun o e he => ?_, ih hlower⟩
      rw [htable] at he
      show layer'.Hidden o ↔
        (newest ((shadowed ++ [ReadLayer.mk run [] []]).map (·.table)) e.id).isSome = true
      rw [hlayer.hidden_iff, hhidden o e he, mem_hidden_ordinals hwf hrun, map_append,
        shadows_tables hrest, newest_append, Option.isSome_or]
      have hnew : (∃ e, layer.table.entries[o]? = some e ∧
          (run.memtable.state e.id).isSome = true) ↔ (run.memtable.state e.id).isSome = true := by
        constructor
        · rintro ⟨e', he', hsome⟩
          rw [he] at he'
          rwa [Option.some.inj he']
        · exact fun hsome => ⟨e, he, hsome⟩
      rw [hnew]
      simp [newest, or_comm]

theorem forall₂_map_right {α β : Type} {R : α → β → Prop} {f : α → β} {xs : List α}
    (h : ∀ x ∈ xs, R x (f x)) : List.Forall₂ R xs (xs.map f) := by
  induction xs with
  | nil => exact .nil
  | cons x xs ih =>
      exact .cons (h x mem_cons_self) (ih fun y hy => h y (mem_cons_of_mem x hy))

/-! ## Building a base -/

/-- Entries of different points that are put into a table win over it. -/
theorem fold_put_spec {entries : List MemTableEntry} (hnodup : (entries.map (·.id)).Nodup)
    {table : MemTable} (h : table.WellFormed) :
    (entries.foldl MemTable.put table).WellFormed ∧
      ∀ id, (entries.foldl MemTable.put table).state id =
        (entries.find? (·.id = id)).or (table.state id) := by
  induction entries generalizing table with
  | nil => exact ⟨h, fun id => (Option.none_or).symm⟩
  | cons entry entries ih =>
      obtain ⟨hfresh, hrest⟩ := nodup_cons.1 hnodup
      obtain ⟨hwf, hstate⟩ := put_spec h entry
      obtain ⟨hwf', hstate'⟩ := ih hrest hwf
      refine ⟨hwf', fun id => ?_⟩
      rw [foldl_cons, hstate', hstate, find?_cons]
      by_cases hid : id = entry.id
      · have hnone : entries.find? (·.id = id) = none := by
          rw [find?_eq_none]
          intro e he heq
          exact hfresh (mem_map.2 ⟨e, he, (of_decide_eq_true heq).trans hid⟩)
        rw [hnone, hid, Function.update_self]
        simp
      · rw [Function.update_of_ne hid]
        simp [Ne.symm hid]

theorem find_eq_state {table : MemTable} (h : table.WellFormed) (id : Int64) :
    table.entries.find? (·.id = id) = table.state id := by
  cases hfind : table.entries.find? (·.id = id) with
  | some e =>
      exact ((MemTable.state_eq_some_iff h).2
        ⟨mem_of_find?_eq_some hfind, by simpa using find?_some hfind⟩).symm
  | none =>
      refine (MemTable.state_of_none ((MemTable.slot_for_none h).2 fun e he => ?_)).symm
      simpa using find?_eq_none.1 hfind e he

theorem put_all_spec {table source : MemTable} (h : table.WellFormed)
    (hsource : source.WellFormed) :
    (putAll table source).WellFormed ∧
      ∀ id, (putAll table source).state id = (source.state id).or (table.state id) := by
  obtain ⟨hwf, hstate⟩ := fold_put_spec (MemTable.ids_nodup hsource) h
  refine ⟨hwf, fun id => ?_⟩
  rw [← find_eq_state hsource]
  exact hstate id

theorem indexed_run_ok {owner : Nat} {table : MemTable} {run : ReadRun}
    (h : indexedRun owner table = .ok run) : run.memtable = table ∧ run.owner = owner := by
  unfold indexedRun at h
  simp only [bind_ok, pure_ok] at h
  obtain ⟨opened, -, loaded, -, metadata, -, -, -, rfl⟩ := h
  exact ⟨rfl, rfl⟩

theorem fold_put_all_spec {runs : List MemTable} (hruns : ∀ run ∈ runs, run.WellFormed)
    {table : MemTable} (h : table.WellFormed) :
    (runs.foldl putAll table).WellFormed ∧
      ∀ id, (runs.foldl putAll table).state id = newest (table :: runs) id := by
  induction runs generalizing table with
  | nil => exact ⟨h, fun id => (Option.none_or).symm⟩
  | cons run runs ih =>
      obtain ⟨hwf, hstate⟩ := put_all_spec h (hruns run mem_cons_self)
      obtain ⟨hwf', hstate'⟩ := ih (fun r hr => hruns r (mem_cons_of_mem _ hr)) hwf
      refine ⟨hwf', fun id => ?_⟩
      rw [foldl_cons, hstate' id]
      show (newest runs id).or _ = ((newest runs id).or (run.state id)).or (table.state id)
      rw [hstate, Option.or_assoc]

/-- A built base holds the newest states of the captured runs. -/
structure SealedMerge.Built (merge : SealedMerge) (base : ReadRun) : Prop where
  runs_ne : merge.runs ≠ []
  well_formed : base.memtable.WellFormed
  state_eq : ∀ id, base.memtable.state id = newest (merge.runs.map (·.memtable)) id

theorem merge_build_ok {merge : SealedMerge} {owner : Nat} {built : SealedMerge}
    (hruns : ∀ run ∈ merge.runs, run.memtable.WellFormed)
    (h : merge.build owner = .ok built) :
    built.runs = merge.runs ∧
      ∃ base, built.base = some base ∧ base.owner = owner ∧ merge.Built base := by
  unfold SealedMerge.build at h
  cases hlist : merge.runs with
  | nil => simp [hlist, throw, throwThe, MonadExceptOf.throw] at h
  | cons first rest =>
      simp only [hlist, bind_ok, pure_ok] at h
      obtain ⟨base, hbase, rfl⟩ := h
      obtain ⟨htable, howner⟩ := indexed_run_ok hbase
      have hall : ∀ run ∈ first :: rest, run.memtable.WellFormed := hlist ▸ hruns
      obtain ⟨hwf, hstate⟩ := @fold_put_all_spec (rest.map (·.memtable))
        (fun run hr => by
          obtain ⟨r, hmem, rfl⟩ := mem_map.1 hr
          exact hall r (mem_cons_of_mem _ hmem)) _ (hall first mem_cons_self)
      refine ⟨rfl, base, rfl, howner, ?_⟩
      rw [← htable] at hwf hstate
      refine ⟨by rw [hlist]; exact cons_ne_nil _ _, hwf, fun id => ?_⟩
      rw [hstate, hlist, map_cons]

/-! ## The identity of runs -/

/-- Runs of one owner number are one run, and the numbers in use are allocated. -/
structure Coherent (allocated : Nat) (runs : List ReadRun) : Prop where
  owner_lt : ∀ run ∈ runs, run.owner < allocated
  eq_of_owner : ∀ run ∈ runs, ∀ run' ∈ runs, run.owner = run'.owner → run = run'

theorem coherent_mono {allocated allocated' : Nat} {runs runs' : List ReadRun}
    (h : Coherent allocated runs) (hle : allocated ≤ allocated') (hsub : runs' ⊆ runs) :
    Coherent allocated' runs' :=
  ⟨fun run hrun => (h.owner_lt run (hsub hrun)).trans_le hle,
    fun run hrun run' hrun' => h.eq_of_owner run (hsub hrun) run' (hsub hrun')⟩

theorem coherent_cons {allocated : Nat} {runs : List ReadRun} (h : Coherent allocated runs)
    {run : ReadRun} (hrun : run.owner = allocated) : Coherent (allocated + 1) (run :: runs) := by
  refine ⟨fun r hr => ?_, fun r hr r' hr' heq => ?_⟩
  · rcases mem_cons.1 hr with rfl | hr
    · omega
    · exact (h.owner_lt r hr).trans (Nat.lt_succ_self _)
  · rcases mem_cons.1 hr with hr | hr <;> rcases mem_cons.1 hr' with hr' | hr'
    · rw [hr, hr']
    · have := h.owner_lt r' hr'
      rw [hr] at heq
      omega
    · have := h.owner_lt r hr
      rw [hr'] at heq
      omega
    · exact h.eq_of_owner r hr r' hr' heq

namespace ReadGenerationCache

/-- The runs of the chain. -/
def runs (cache : ReadGenerationCache) : List ReadRun :=
  cache.layers.map (·.run)

/-- An operation allocates new numbers for new runs, whatever runs others hold. -/
def Allocates (before after : ReadGenerationCache) : Prop :=
  ∀ held, Coherent before.allocated (before.runs ++ held) →
    Coherent after.allocated (after.runs ++ held)

/-! ## The chain and the head -/

/-- The newest state of a point in the chain and the head. -/
def newestState (cache : ReadGenerationCache) (id : Int64) : Option MemTableEntry :=
  newest (cache.layers.map (·.table) ++ cache.head.toList) id

/-- The chain is layered, and there is a head exactly when there is a chain. -/
structure Valid (cache : ReadGenerationCache) : Prop where
  layered : Layered cache.layers
  head_iff : cache.head.isSome = true ↔ cache.layers ≠ []
  head_wf : ∀ head, cache.head = some head → head.WellFormed
  frozen_eq : ∀ run, cache.frozenHead = some run → cache.head = some run.memtable

variable {cache next : ReadGenerationCache}

/-- What an operation on the head keeps: the chain is there, and other runs keep their numbers. -/
structure Keeps (before after : ReadGenerationCache) : Prop where
  valid : after.Valid
  allocates : before.Allocates after
  nonempty : after.layers ≠ []
  root_eq : after.root = before.root

theorem newest_state_head {head : MemTable} (hhead : cache.head = some head) (id : Int64) :
    cache.newestState id = (head.state id).or (newest (cache.layers.map (·.table)) id) := by
  unfold newestState
  rw [hhead, newest_append]
  simp [newest]

theorem newest_state_empty {dimension : Nat} (hhead : cache.head = some (.empty dimension))
    (id : Int64) : cache.newestState id = newest (cache.layers.map (·.table)) id := by
  rw [newest_state_head hhead]
  exact Option.none_or

/-- Sealing moves states and changes none. -/
theorem seal_head_ok (h : cache.Valid) (hrun : cache.sealHead = .ok next) :
    cache.Keeps next ∧ ∀ id, next.newestState id = cache.newestState id := by
  unfold sealHead at hrun
  cases hhead : cache.head with
  | none => simp [hhead, throw, throwThe, MonadExceptOf.throw] at hrun
  | some table =>
      simp only [hhead, bind_ok, pure_ok] at hrun
      obtain ⟨run, hindexed, rfl⟩ := hrun
      obtain ⟨htable, howner⟩ := indexed_run_ok hindexed
      have hwf := h.head_wf table hhead
      have hshadows : List.Forall₂ (ReadLayer.Shadows · run.memtable ·) cache.layers
          (cache.layers.map (ReadLayer.shadow · table)) := by
        rw [htable]
        exact forall₂_map_right fun layer hl =>
          shadow_shadows (layered_forall h.layered layer hl).2 table
      have hruns : (cache.layers.map (ReadLayer.shadow · table)).map (·.run) =
          cache.layers.map (·.run) :=
        forall₂_map_eq hshadows fun _ _ _ hs => hs.run_eq
      refine ⟨⟨⟨layered_push h.layered (htable ▸ hwf) hshadows, ?_, ?_, (by intros; contradiction)⟩, ?_, ?_, rfl⟩, ?_⟩
      · simp
      · intro head heq
        exact Option.some.inj heq ▸ empty_well_formed _
      · intro held hcoherent
        refine coherent_mono (coherent_cons hcoherent howner) le_rfl ?_
        unfold runs
        intro r hr
        simp only [map_append, hruns, map_cons, map_nil] at hr
        simp only [mem_append, mem_cons] at hr ⊢
        tauto
      · simp
      · intro id
        refine Eq.trans (newest_state_empty rfl id) ?_
        show newest ((cache.layers.map (ReadLayer.shadow · table) ++
          [ReadLayer.mk run [] []]).map (·.table)) id = _
        rw [newest_state_head hhead, map_append, newest_append, shadows_tables hshadows]
        show (Option.or none (run.memtable.state id)).or _ = _
        rw [Option.none_or, htable]

theorem keeps_refl (h : cache.Valid) (hne : cache.layers ≠ []) : cache.Keeps cache :=
  ⟨h, fun _ hcoherent => hcoherent, hne, rfl⟩

theorem keeps_trans {last : ReadGenerationCache} (h : cache.Keeps next) (h' : next.Keeps last) :
    cache.Keeps last :=
  ⟨h'.valid, fun held hcoherent => h'.allocates held (h.allocates held hcoherent), h'.nonempty,
    h'.root_eq.trans h.root_eq⟩

theorem make_room_ok (h : cache.Valid) (hne : cache.layers ≠ []) {replaced : Option Int}
    {incoming bytes : Int} (hrun : cache.makeRoom replaced incoming = .ok (next, bytes)) :
    cache.Keeps next ∧ ∀ id, next.newestState id = cache.newestState id := by
  unfold makeRoom at hrun
  split at hrun
  · simp only [bind_ok, pure_ok, Prod.mk.injEq] at hrun
    obtain ⟨room, hseal, rfl, -⟩ := hrun
    exact seal_head_ok h hseal
  · simp only [pure_ok, Prod.mk.injEq] at hrun
    obtain ⟨rfl, -⟩ := hrun
    exact ⟨keeps_refl h hne, fun _ => rfl⟩

/-- A put changes the newest state of its point only. -/
theorem put_head_ok (h : cache.Valid) (hne : cache.layers ≠ []) (entry : MemTableEntry)
    (added : Int) :
    cache.Keeps (cache.putHead entry added) ∧ ∀ id, (cache.putHead entry added).newestState id =
      if id = entry.id then some entry else cache.newestState id := by
  obtain ⟨head, hhead⟩ := Option.isSome_iff_exists.1 (h.head_iff.2 hne)
  obtain ⟨hwf, hstate⟩ := put_spec (h.head_wf head hhead) entry
  have hnext : (cache.putHead entry added).head = some (head.put entry) := by
    show cache.head.map _ = _
    rw [hhead]
    rfl
  refine ⟨⟨⟨h.layered, ?_, ?_, nofun⟩, fun _ hcoherent => hcoherent, hne, rfl⟩, fun id => ?_⟩
  · rw [hnext]
    exact ⟨fun _ => hne, fun _ => rfl⟩
  · intro put hput
    rw [hnext] at hput
    exact Option.some.inj hput ▸ hwf
  · rw [newest_state_head hnext, newest_state_head hhead, hstate, Function.update_apply]
    split
    · rw [Option.some_or]
    · rfl

/-- Recording a point sets its newest state to the writer's. -/
theorem record_one_ok (h : cache.Valid) (hne : cache.layers ≠ []) {table : MemTable}
    (htable : table.WellFormed) {id : Int64} (hrun : cache.recordOne table id = .ok next) :
    cache.Keeps next ∧ ∀ id', next.newestState id' =
      if id' = id then table.state id else cache.newestState id' := by
  unfold recordOne at hrun
  cases hstate : table.state id with
  | none => simp [hstate, throw, throwThe, MonadExceptOf.throw] at hrun
  | some entry =>
      obtain ⟨-, hid⟩ := (MemTable.state_eq_some_iff htable).1 hstate
      simp only [hstate, bind_ok] at hrun
      obtain ⟨⟨room, bytes⟩, hroom, hrun⟩ := hrun
      obtain ⟨hkeeps, hsame⟩ := make_room_ok h hne hroom
      obtain ⟨hkeeps', hput⟩ := put_head_ok hkeeps.valid hkeeps.nonempty entry
        (entry.contentBytes - bytes)
      have hnewest : ∀ id', (room.putHead entry (entry.contentBytes - bytes)).newestState id' =
          if id' = id then some entry else cache.newestState id' := by
        intro id'
        rw [hput, hsame, hid]
      split at hrun
      · obtain ⟨hkeeps'', hsealed⟩ := seal_head_ok hkeeps'.valid hrun
        exact ⟨keeps_trans (keeps_trans hkeeps hkeeps') hkeeps'', fun id' =>
          (hsealed id').trans (hnewest id')⟩
      · obtain rfl := pure_ok.1 hrun
        exact ⟨keeps_trans hkeeps hkeeps', hnewest⟩

/-- Recording a batch sets the newest states of its points to the writer's. -/
theorem record_each_ok (h : cache.Valid) (hne : cache.layers ≠ []) {table : MemTable}
    (htable : table.WellFormed) {ids : List Int64} (hrun : cache.recordEach table ids = .ok next) :
    cache.Keeps next ∧ ∀ id, next.newestState id =
      if id ∈ ids then table.state id else cache.newestState id := by
  induction ids generalizing cache with
  | nil =>
      obtain rfl := pure_ok.1 hrun
      exact ⟨keeps_refl h hne, fun id => by simp⟩
  | cons id ids ih =>
      simp only [recordEach, bind_ok] at hrun
      obtain ⟨middle, hfirst, hrest⟩ := hrun
      obtain ⟨hkeeps, hone⟩ := record_one_ok h hne htable hfirst
      obtain ⟨hkeeps', heach⟩ := ih hkeeps.valid hkeeps.nonempty hrest
      refine ⟨keeps_trans hkeeps hkeeps', fun id' => ?_⟩
      rw [heach, hone]
      by_cases hmem : id' ∈ ids
      · simp [hmem]
      · by_cases hid : id' = id
        · simp [hid]
        · simp [hmem, hid]

/-! ## Publishing -/

/-- The publisher shows the writer's table: its chain, and its cached root. -/
structure Tracks (cache : ReadGenerationCache) (table : MemTable) : Prop where
  valid : cache.Valid
  newest_eq : cache.layers ≠ [] → ∀ id, cache.newestState id = table.state id

theorem reset_tracks (cache : ReadGenerationCache) (table : MemTable) :
    cache.reset.Tracks table where
  valid := ⟨trivial, by simp [reset], nofun, nofun⟩
  newest_eq := nofun

theorem reset_allocates (cache : ReadGenerationCache) : cache.Allocates cache.reset :=
  fun held hcoherent => coherent_mono hcoherent le_rfl (subset_append_right _ held)

/-- After a batch is recorded the publisher shows the table with the batch. -/
theorem record_tracks {before table : MemTable} (h : cache.Tracks before)
    (htable : table.WellFormed) {ids : List Int64} (sequence : Nat)
    (hsame : ∀ id, id ∉ ids → table.state id = before.state id) :
    (cache.record table ids sequence).Tracks table ∧
      cache.Allocates (cache.record table ids sequence) ∧
      (cache.record table ids sequence).root = none := by
  unfold record
  simp only
  split
  · rename_i hempty
    have hnil : cache.layers = [] := length_eq_zero_iff.1 hempty
    exact ⟨⟨⟨h.valid.layered, h.valid.head_iff, h.valid.head_wf, h.valid.frozen_eq⟩,
      fun hne => absurd hnil hne⟩, fun _ hcoherent => hcoherent, rfl⟩
  · rename_i hlayers
    have hne : cache.layers ≠ [] := fun hnil => hlayers (length_eq_zero_iff.2 hnil)
    split
    · rename_i last hrun
      obtain ⟨hkeeps, hnewest⟩ := @record_each_ok cache.invalidate last
        ⟨h.valid.layered, h.valid.head_iff, h.valid.head_wf, h.valid.frozen_eq⟩ hne table htable ids hrun
      refine ⟨⟨⟨hkeeps.valid.layered, hkeeps.valid.head_iff, hkeeps.valid.head_wf,
        hkeeps.valid.frozen_eq⟩, fun _ id => ?_⟩, hkeeps.allocates, hkeeps.root_eq⟩
      show last.newestState id = _
      rw [hnewest]
      split
      · rfl
      · rename_i hid
        rw [hsame id hid]
        exact h.newest_eq hne id
    · exact ⟨reset_tracks _ table, reset_allocates cache, rfl⟩

theorem newest_is_some {tables : List MemTable} {id : Int64} :
    (newest tables id).isSome = true ↔ ∃ table ∈ tables, (table.state id).isSome = true := by
  induction tables with
  | nil => simp [newest]
  | cons table tables ih =>
      rw [newest, Option.isSome_or, Bool.or_eq_true, ih, exists_mem_cons_iff, or_comm]

theorem layered_drop (h : Layered layers) (n : Nat) :
    Layered (layers.drop n) := by
  induction layers generalizing n with
  | nil => rw [drop_nil]; trivial
  | cons layer layers ih =>
      cases n with
      | zero => exact h
      | succ n => exact ih h.2.2.2 n

/-- What a merge promises: its runs are well formed and its base holds their states. -/
structure MergeValid (merge : SealedMerge) : Prop where
  runs_wf : ∀ run ∈ merge.runs, run.memtable.WellFormed
  built : ∀ base, merge.base = some base → merge.Built base

/-- The runs that a merge holds on to. -/
def heldRuns (merge : SealedMerge) : List ReadRun :=
  merge.runs ++ merge.base.toList

theorem capture_valid (h : cache.Valid) : MergeValid cache.captureMerge := by
  refine ⟨fun run hrun => ?_, nofun⟩
  obtain ⟨layer, hl, rfl⟩ := mem_map.1 hrun
  exact (layered_forall h.layered layer hl).1

theorem build_valid {merge built : SealedMerge} {owner : Nat} (h : MergeValid merge)
    (hrun : merge.build owner = .ok built) : MergeValid built ∧
      ∃ base, base.owner = owner ∧ heldRuns built = merge.runs ++ [base] := by
  obtain ⟨hruns, base, hbase, howner, hbuilt⟩ := merge_build_ok h.runs_wf hrun
  refine ⟨⟨hruns ▸ h.runs_wf, fun base' hbase' => ?_⟩, base, howner, ?_⟩
  · rw [hbase] at hbase'
    obtain rfl := Option.some.inj hbase'
    exact ⟨hruns ▸ hbuilt.runs_ne, hbuilt.well_formed, hruns ▸ hbuilt.state_eq⟩
  · unfold heldRuns
    rw [hruns, hbase]
    rfl

theorem take_runs_eq {held : List ReadRun} (h : Coherent cache.allocated (cache.runs ++ held))
    {merge : SealedMerge} (hmerge : heldRuns merge ⊆ held)
    (hcurrent : cache.isCurrent merge = true) :
    (cache.layers.take merge.runs.length).map (·.run) = merge.runs := by
  unfold isCurrent at hcurrent
  simp only [Bool.and_eq_true, decide_eq_true_eq, beq_iff_eq] at hcurrent
  obtain ⟨hle, howners⟩ := hcurrent
  have hlen : ((cache.layers.take merge.runs.length).map (·.run)).length = merge.runs.length := by
    rw [length_map, length_take, Nat.min_eq_left hle]
  refine ext_getElem hlen fun i hi hi' => h.eq_of_owner _ ?_ _ ?_ ?_
  · refine mem_append_left _ ?_
    exact map_subset _ (take_subset _ _) (getElem_mem hi)
  · exact mem_append_right _ (hmerge (mem_append_left _ (getElem_mem hi')))
  · have howner := congrArg (·[i]?) howners
    rw [length_map, length_take] at hi
    simpa [hi', show i < cache.layers.length by omega] using howner

/-- A merge that is current replaces its runs by a base of the same states. -/
theorem publish_merge_tracks {table : MemTable} (h : cache.Tracks table) {merge : SealedMerge}
    (hvalid : MergeValid merge) {held : List ReadRun} (hmerge : heldRuns merge ⊆ held)
    (hcoherent : Coherent cache.allocated (cache.runs ++ held)) :
    (cache.publishMerge merge).1.Tracks table ∧
      Coherent (cache.publishMerge merge).1.allocated ((cache.publishMerge merge).1.runs ++ held) ∧
      ((cache.publishMerge merge).1.root = none ∨
        (cache.publishMerge merge).1.root = cache.root) := by
  unfold publishMerge
  cases hbase : merge.base with
  | none => exact ⟨h, hcoherent, .inr rfl⟩
  | some base =>
      simp only
      split
      · rename_i hcurrent
        have hbuilt := hvalid.built base hbase
        have hruns := take_runs_eq hcoherent hmerge hcurrent
        have htake : (cache.layers.take merge.runs.length).map (·.table) =
            merge.runs.map (·.memtable) := by
          conv_rhs => rw [← hruns, map_map]
          rfl
        have hsplit : ∀ id, newest (cache.layers.map (·.table)) id =
            newest (base.memtable :: (cache.layers.drop merge.runs.length).map (·.table)) id := by
          intro id
          conv_lhs => rw [← take_append_drop merge.runs.length cache.layers]
          rw [map_append, newest_append, htake, ← hbuilt.state_eq, newest]
        have hhidden : ∀ o e, base.memtable.entries[o]? = some e →
            (o ∈ union [] ((cache.layers.drop merge.runs.length).flatMap fun layer =>
              hiddenOrdinals base.memtable layer.run.memtable) ↔
              (newest ((cache.layers.drop merge.runs.length).map (·.table)) e.id).isSome =
                true) := by
          intro o e he
          rw [mem_union, newest_is_some, mem_flatMap, or_iff_right not_mem_nil]
          simp only [mem_map, exists_exists_and_eq_and]
          refine exists_congr fun layer => and_congr_right fun hl => ?_
          have hwf := (layered_forall h.valid.layered layer (mem_of_mem_drop hl)).1
          rw [mem_hidden_ordinals hbuilt.well_formed hwf]
          constructor
          · rintro ⟨e', he', hsome⟩
            rw [he] at he'
            rwa [Option.some.inj he']
          · exact fun hsome => ⟨e, he, hsome⟩
        have hlayers : cache.layers ≠ [] := by
          intro hnil
          rw [hnil, take_nil] at hruns
          exact hbuilt.runs_ne hruns.symm
        refine ⟨⟨⟨⟨hbuilt.well_formed, ⟨union_sorted _ _, .nil⟩, fun o e he => ?_,
          layered_drop h.valid.layered _⟩, ?_, h.valid.head_wf, h.valid.frozen_eq⟩, ?_⟩, ?_,
          .inl rfl⟩
        · rw [← hhidden o e he]
          exact or_iff_left not_mem_nil
        · exact ⟨fun _ => cons_ne_nil _ _, fun _ => h.valid.head_iff.2 hlayers⟩
        · intro _ id
          rw [← h.newest_eq hlayers id]
          unfold newestState
          show newest ((base.memtable :: (cache.layers.drop merge.runs.length).map (·.table)) ++ _)
            id = _
          rw [newest_append, newest_append, hsplit]
          rfl
        · refine coherent_mono hcoherent le_rfl ?_
          intro run hrun
          rcases mem_append.1 hrun with hrun | hrun
          · rcases mem_cons.1 hrun with rfl | hrun
            · refine mem_append_right _ (hmerge (mem_append_right _ ?_))
              rw [hbase]
              exact mem_singleton_self _
            · exact mem_append_left _ (map_subset _ (drop_subset _ _) hrun)
          · exact mem_append_right _ hrun
      · exact ⟨h, hcoherent, .inr rfl⟩

/-- Merging in one step keeps what the publisher shows. -/
theorem merge_sealed_runs_tracks {table : MemTable} (h : cache.Tracks table)
    (hrun : cache.mergeSealedRuns = .ok next) {held : List ReadRun}
    (hcoherent : Coherent cache.allocated (cache.runs ++ held)) :
    next.Tracks table ∧ Coherent next.allocated (next.runs ++ held) ∧
      (next.root = none ∨ next.root = cache.root) := by
  unfold mergeSealedRuns at hrun
  simp only [bind_ok, pure_ok] at hrun
  obtain ⟨built, hbuild, rfl⟩ := hrun
  obtain ⟨hvalid, base, howner, hheld⟩ := build_valid (capture_valid h.valid) hbuild
  have hgrown : Coherent (cache.allocated + 1) (cache.runs ++ (heldRuns built ++ held)) := by
    refine coherent_mono (coherent_cons hcoherent howner) le_rfl ?_
    intro run hrun
    rw [hheld] at hrun
    simp only [captureMerge, runs, mem_append, mem_cons, not_mem_nil,
      or_false] at hrun ⊢
    tauto
  obtain ⟨htracks, hnext, hroot⟩ := @publish_merge_tracks
    { cache with allocated := cache.allocated + 1 } table
    ⟨⟨h.valid.layered, h.valid.head_iff, h.valid.head_wf, h.valid.frozen_eq⟩, h.newest_eq⟩ built hvalid
    (heldRuns built ++ held) (subset_append_left _ held) hgrown
  refine ⟨htracks, coherent_mono hnext le_rfl ?_, hroot⟩
  intro run hrun
  rcases mem_append.1 hrun with hrun | hrun
  · exact mem_append_left _ hrun
  · exact mem_append_right _ (mem_append_right _ hrun)

/-- A new chain starts from the writer's table. -/
theorem build_base_tracks {table : MemTable} (htable : table.WellFormed) {sequence : Nat}
    (hrun : cache.buildBase table sequence = .ok next) :
    next.Tracks table ∧ cache.Allocates next ∧ next.root = cache.root := by
  unfold buildBase at hrun
  simp only [bind_ok, pure_ok] at hrun
  obtain ⟨run, hindexed, rfl⟩ := hrun
  obtain ⟨hrunTable, howner⟩ := indexed_run_ok hindexed
  have hwf : run.memtable.WellFormed := by
    rw [hrunTable]
    exact htable
  refine ⟨⟨⟨⟨hwf, ⟨.nil, .nil⟩, fun o e _ => ?_, trivial⟩, ?_, ?_, (by intros; contradiction)⟩,
    fun _ id => ?_⟩, ?_, rfl⟩
  · simp [newest, ReadLayer.Hidden]
  · simp
  · intro head heq
    exact Option.some.inj heq ▸ empty_well_formed _
  · refine Eq.trans (newest_state_empty rfl id) ?_
    show Option.or none (run.memtable.state id) = _
    rw [Option.none_or, hrunTable]
  · intro held hcoherent
    refine coherent_mono (coherent_cons hcoherent howner) le_rfl ?_
    intro r hr
    simp only [runs, map_cons, map_nil, mem_append, mem_cons, not_mem_nil,
      or_false] at hr ⊢
    tauto

theorem current_chain_tracks {table : MemTable} (h : cache.Tracks table)
    (htable : table.WellFormed) {config : ReadConfig} {sequence : Nat}
    (hrun : cache.currentChain config sequence table = .ok next) :
    next.Tracks table ∧ next.layers ≠ [] ∧ cache.Allocates next ∧ next.root = cache.root := by
  unfold currentChain at hrun
  simp only [bind_ok, exists_unit] at hrun
  obtain ⟨-, -, -, -, hrun⟩ := hrun
  split at hrun
  · obtain ⟨htracks, hallocates, hroot⟩ := build_base_tracks htable hrun
    refine ⟨htracks, ?_, hallocates, hroot⟩
    unfold buildBase at hrun
    simp only [bind_ok, pure_ok] at hrun
    obtain ⟨run, -, rfl⟩ := hrun
    exact cons_ne_nil _ _
  · rename_i hlayers
    simp only [bind_ok, exists_unit, pure_ok] at hrun
    obtain ⟨-, rfl⟩ := hrun
    exact ⟨h, fun hnil => hlayers (length_eq_zero_iff.2 hnil), fun _ hcoherent => hcoherent,
      rfl⟩

/-- What freezing the head changes: only the published copy. -/
structure Freezes (before after : ReadGenerationCache) (frozen : Option ReadRun) : Prop where
  layers_eq : after.layers = before.layers
  head_eq : after.head = before.head
  root_eq : after.root = before.root
  frozen_eq : ∀ run, after.frozenHead = some run → after.head = some run.memtable
  allocated_le : before.allocated ≤ after.allocated
  copy_eq : ∀ run, frozen = some run → before.head = some run.memtable
  empty_of_none : frozen = none → ∀ head, before.head = some head → head.entries = []

theorem freeze_head_ok (h : cache.Valid) :
    cache.Freezes cache.freezeHead.1 cache.freezeHead.2 := by
  unfold freezeHead
  cases hhead : cache.head with
  | none => exact ⟨rfl, rfl, rfl, h.frozen_eq, le_rfl, nofun, fun _ _ heq => by cases hhead ▸ heq⟩
  | some head =>
      simp only
      split
      · rename_i hempty
        refine ⟨rfl, rfl, rfl, h.frozen_eq, le_rfl, nofun, fun _ head' heq => ?_⟩
        rw [hhead] at heq
        exact Option.some.inj heq ▸ length_eq_zero_iff.1 hempty
      · cases hfrozen : cache.frozenHead with
        | some run =>
            exact ⟨rfl, rfl, rfl, h.frozen_eq, le_rfl, fun run' heq =>
              h.frozen_eq run' (hfrozen.trans heq), nofun⟩
        | none =>
            refine ⟨rfl, hhead.symm, rfl, fun run heq => ?_, Nat.le_succ _, fun run heq => ?_,
              nofun⟩
            · rw [← Option.some.inj heq]
            · rw [hhead, ← Option.some.inj heq]

end ReadGenerationCache

namespace ReadGeneration

/-- A root shows a table: its layers hold the table's states, and it has the table's counts. -/
structure Shows (root : ReadGeneration) (table : MemTable) : Prop where
  layered : Layered root.layers
  newest_eq : ∀ id, newest (root.layers.map (·.table)) id = table.state id
  visible_eq : root.visibleCount = table.liveCount
  dense_eq : root.denseCount = table.denseLiveCount

end ReadGeneration

namespace ReadGenerationCache

variable {cache next : ReadGenerationCache}

/-- What a capture of a table does: the publisher goes on showing the table, and so do the root
it keeps and the root it returns. -/
structure Captures (before : ReadGenerationCache) (table : MemTable) (sequence : Nat)
    (after : ReadGenerationCache × Except String ReadGeneration) : Prop where
  tracks : after.1.Tracks table
  allocates : before.Allocates after.1
  root_ok : ∀ root, after.1.root = some root → before.root = some root ∨ root.Shows table
  result_ok : ∀ root, after.2 = .ok root →
    (before.root = some root ∨ root.Shows table) ∧ root.sequence = sequence

/-- The chain with the frozen head on top holds the newest states. -/
theorem with_head_ok (h : cache.Valid) {frozen : Option ReadRun}
    (hcopy : ∀ run, frozen = some run → cache.head = some run.memtable)
    (hempty : frozen = none → ∀ head, cache.head = some head → head.entries = []) :
    Layered (withHead cache.layers frozen) ∧
      ∀ id, newest ((withHead cache.layers frozen).map (·.table)) id = cache.newestState id := by
  cases frozen with
  | none =>
      refine ⟨h.layered, fun id => ?_⟩
      cases hhead : cache.head with
      | none =>
          unfold newestState
          rw [hhead, Option.toList_none, append_nil]
          rfl
      | some head =>
          have hnone : head.state id = none := by
            refine state_of_none ((MemTable.slot_for_none (h.head_wf head hhead)).2 ?_)
            rw [hempty rfl head hhead]
            nofun
          rw [newest_state_head hhead, hnone, Option.none_or]
          rfl
  | some run =>
      have hhead := hcopy run rfl
      have hshadows := forall₂_map_right fun layer (hl : layer ∈ cache.layers) =>
        head_hidden_shadows (layered_forall h.layered layer hl).2 run.memtable
      refine ⟨layered_push h.layered (h.head_wf _ hhead) hshadows, fun id => ?_⟩
      rw [newest_state_head hhead]
      unfold withHead
      simp only
      rw [map_append, newest_append, shadows_tables hshadows]
      show (Option.or none (run.memtable.state id)).or _ = _
      rw [Option.none_or]

theorem publish_root_captures {table : MemTable} (h : cache.Tracks table)
    (hne : cache.layers ≠ []) (config : ReadConfig) (generation sequence : Nat)
    (catalog : Option Nat) (pinned : Except String Unit) :
    cache.Captures table sequence
      (cache.publishRoot config generation sequence table catalog pinned) := by
  have hfreeze := freeze_head_ok h.valid
  have hvalid : cache.freezeHead.1.Valid := by
    refine ⟨hfreeze.layers_eq ▸ h.valid.layered, ?_, ?_, hfreeze.frozen_eq⟩
    · rw [hfreeze.layers_eq, hfreeze.head_eq]
      exact h.valid.head_iff
    · rw [hfreeze.head_eq]
      exact h.valid.head_wf
  have hnewest : ∀ id, cache.freezeHead.1.newestState id = table.state id := by
    intro id
    rw [← h.newest_eq hne id]
    unfold newestState
    rw [hfreeze.layers_eq, hfreeze.head_eq]
  have hallocates : cache.Allocates cache.freezeHead.1 := by
    intro held hcoherent
    refine coherent_mono hcoherent hfreeze.allocated_le ?_
    unfold runs
    rw [hfreeze.layers_eq]
    exact fun _ hrun => hrun
  obtain ⟨hlayered, hshown⟩ := with_head_ok hvalid
    (fun run (heq : cache.freezeHead.2 = some run) => hfreeze.head_eq.trans (hfreeze.copy_eq run heq))
    (fun heq head hhead => hfreeze.empty_of_none heq head (hfreeze.head_eq.symm.trans hhead))
  unfold publishRoot
  cases pinned with
  | error e =>
      exact ⟨⟨hvalid, fun _ => hnewest⟩, hallocates, fun root hroot =>
        .inl (hfreeze.root_eq ▸ hroot), nofun⟩
  | ok u =>
      refine ⟨⟨⟨hvalid.layered, hvalid.head_iff, hvalid.head_wf, hvalid.frozen_eq⟩,
        fun _ => hnewest⟩, hallocates, fun root hroot => .inr ?_, fun root hroot => ?_⟩
      · obtain rfl := Option.some.inj hroot
        exact ⟨hlayered, fun id => (hshown id).trans (hnewest id), rfl, rfl⟩
      · obtain rfl := Except.ok.inj hroot
        exact ⟨.inr ⟨hlayered, fun id => (hshown id).trans (hnewest id), rfl, rfl⟩, rfl⟩

/-- A capture of the writer's table. -/
theorem acquire_captures {table : MemTable} (h : cache.Tracks table) (htable : table.WellFormed)
    (config : ReadConfig) (generation sequence : Nat) (catalog : Option Nat)
    (pinned : Except String Unit) :
    cache.Captures table sequence
      (cache.acquire config generation sequence table catalog pinned) := by
  unfold acquire
  cases hcached : cache.root.filter (isCached · config generation sequence catalog) with
  | some root =>
      obtain ⟨hroot, hmatch⟩ := Option.filter_eq_some_iff.1 hcached
      refine ⟨h, fun _ hcoherent => hcoherent, fun _ hroot' => .inl hroot', fun root' heq => ?_⟩
      obtain rfl := Except.ok.inj heq
      unfold isCached at hmatch
      simp only [Bool.and_eq_true, beq_iff_eq] at hmatch
      exact ⟨.inl hroot, hmatch.1.1.2⟩
  | none =>
      simp only
      cases hchain : cache.currentChain config sequence table with
      | error e => exact ⟨h, fun _ hcoherent => hcoherent, fun _ hroot => .inl hroot, nofun⟩
      | ok chain =>
          obtain ⟨htracks, hne, hallocates, hroot⟩ := current_chain_tracks h htable hchain
          have hcaptures := publish_root_captures htracks hne config generation sequence catalog
            pinned
          exact ⟨hcaptures.tracks, fun held hcoherent =>
            hcaptures.allocates held (hallocates held hcoherent), hroot ▸ hcaptures.root_ok,
            hroot ▸ hcaptures.result_ok⟩

end ReadGenerationCache

end Akasha.Storage

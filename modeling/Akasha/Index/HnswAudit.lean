import Akasha.Index.HnswStructure
import Mathlib.Algebra.Order.BigOperators.Group.List

/-!
# The link audit over packed keys

`_audit_bidirectional_links_with_stats` of `hnsw_core.mojo` as it runs. It numbers the owned
cells, packs the number of an edge's source cell and its target into one 64-bit key, does the same
for the reverse that the edge needs, sorts both lists of keys and compares them position by
position. The main theorem, `audit_accepts_iff`, says that this decides symmetry: on a locally
valid graph whose cells can be numbered the audit accepts exactly when every target owns the level
of its edge, every edge has its reverse, and no list exceeds its capacity.
-/

namespace Akasha.Hnsw

open Lib List

variable {V : Type}

/-- Two 32-bit numbers in one key: `(UInt64(high) << 32) | UInt64(low)`. -/
def packKey (high low : Nat) : UInt64 :=
  (UInt64.ofNat high <<< 32) ||| UInt64.ofNat low

/-- The counters of `HnswValidationStats` that do not depend on the allocator. -/
structure HnswValidationStats where
  ownedLevelCells : Nat
  directedEdges : Nat
deriving DecidableEq, Repr

/-- `level_groups`: the number of each owned cell, by its packed level and slot. -/
abbrev LevelGroups := Std.ExtTreeMap UInt64 Nat

/-- `level_groups[key]`. -/
def LevelGroups.group (groups : LevelGroups) (level slot : Nat) : Except String Nat :=
  match groups[packKey level slot]? with
  | some group => .ok group
  | none => .error "KeyError"

namespace HnswStorage

/-- Number the owned cells in the order of their slots and levels. -/
def numberCells : LevelGroups → Nat → List (Nat × Nat) → Except String (LevelGroups × Nat)
  | groups, count, [] => .ok (groups, count)
  | groups, count, (slot, level) :: rest => do
      require (count < emptyNeighbor) "HNSW owned level count exceeds validation address space"
      numberCells (groups.insert (packKey level slot) count) (count + 1) rest

variable (graph : HnswStorage V) (groups : LevelGroups)

/-- The key of an edge and the key of the reverse that it needs. -/
def edgeKeys (slot level source neighbor : Nat) : Except String (UInt64 × UInt64) := do
  let owned ← graph.level neighbor
  require (level ≤ owned) "HNSW edge target does not own graph level"
  let target ← groups.group level neighbor
  pure (packKey source neighbor, packKey target slot)

/-- The keys of the edges of one cell. -/
def cellKeys (cell : Nat × Nat) : Except String (List (UInt64 × UInt64)) := do
  let values ← graph.neighbors cell.1 cell.2
  require (values.length ≤ graph.capacityAt cell.2) "HNSW touched adjacency exceeds level capacity"
  let source ← groups.group cell.2 cell.1
  values.mapM (graph.edgeKeys groups cell.1 cell.2 source)

/-- `_audit_bidirectional_links_with_stats`. -/
def auditBidirectionalLinks (graph : HnswStorage V) : Except String HnswValidationStats := do
  require (graph.valid = true) "cannot search an invalid HNSW graph"
  let (groups, ownedLevelCells) ← numberCells ∅ 0 graph.ownedLevels
  let keys ← graph.ownedLevels.mapM (graph.cellKeys groups)
  let edges := (keys.flatten.map (·.1)).mergeSort (· ≤ ·)
  let requiredReverseEdges := (keys.flatten.map (·.2)).mergeSort (· ≤ ·)
  checkEach (edges.zip requiredReverseEdges) fun pair =>
    require (pair.1 = pair.2) "HNSW graph contains an asymmetric edge"
  pure ⟨ownedLevelCells, keys.flatten.length⟩

/-- What the structural checks ensure of every list: slots of the graph, each once and not the
list's own; and the graph was not quarantined. -/
structure LocallyValid (graph : HnswStorage V) : Prop where
  ready : graph.valid = true
  inRange : ∀ level slot, ∀ neighbor ∈ graph.adjacency level slot, neighbor < graph.slotCount
  nodup : ∀ level slot, (graph.adjacency level slot).Nodup
  irrefl : ∀ level slot, slot ∉ graph.adjacency level slot

end HnswStorage

/-! ## Keys -/

instance uint64LeTotal : Std.Total (α := UInt64) (· ≤ ·) := ⟨UInt64.le_total⟩

instance uint64LeTrans : IsTrans UInt64 (· ≤ ·) := ⟨fun _ _ _ => UInt64.le_trans⟩

instance uint64LeAntisymm : Std.Antisymm (α := UInt64) (· ≤ ·) := ⟨fun _ _ => UInt64.le_antisymm⟩

theorem pack_key_to_nat {high low : Nat} (hhigh : high < 2 ^ 32) (hlow : low < 2 ^ 32) :
    (packKey high low).toNat = 2 ^ 32 * high + low := by
  have hh : (UInt64.ofNat high).toNat = high := by
    rw [UInt64.toNat_ofNat']
    omega
  have hl : (UInt64.ofNat low).toNat = low := by
    rw [UInt64.toNat_ofNat']
    omega
  have hjoin := Nat.two_pow_add_eq_or_of_lt (i := 32) hlow high
  rw [packKey, UInt64.toNat_or, UInt64.toNat_shiftLeft, hh, hl, Nat.shiftLeft_eq]
  simp only [UInt64.toNat_ofNat, Nat.reducePow, Nat.reduceMod] at hjoin ⊢
  rw [Nat.mod_eq_of_lt (by omega), Nat.mul_comm, ← hjoin]

theorem pack_key_injective {high low high' low' : Nat} (hhigh : high < 2 ^ 32)
    (hlow : low < 2 ^ 32) (hhigh' : high' < 2 ^ 32) (hlow' : low' < 2 ^ 32)
    (h : packKey high low = packKey high' low') : high = high' ∧ low = low' := by
  have hvalue := congrArg UInt64.toNat h
  rw [pack_key_to_nat hhigh hlow, pack_key_to_nat hhigh' hlow'] at hvalue
  omega

namespace HnswStorage

/-- Numbering gives the cells their positions, and leaves other keys alone. -/
theorem number_cells_ok {cells : List (Nat × Nat)} {groups : LevelGroups} {count : Nat}
    (hnodup : cells.Nodup) (hfits : ∀ cell ∈ cells, cell.1 < 2 ^ 32 ∧ cell.2 < 2 ^ 32)
    (hroom : count + cells.length ≤ emptyNeighbor) :
    ∃ last, numberCells groups count cells = .ok (last, count + cells.length) ∧
      (∀ cell ∈ cells, last.group cell.2 cell.1 = .ok (count + cells.idxOf cell)) ∧
      ∀ key, (∀ cell ∈ cells, key ≠ packKey cell.2 cell.1) → last[key]? = groups[key]? := by
  induction cells generalizing groups count with
  | nil => exact ⟨groups, rfl, by simp, fun _ _ => rfl⟩
  | cons cell rest ih =>
      obtain ⟨slot, level⟩ := cell
      rw [List.nodup_cons] at hnodup
      rw [List.forall_mem_cons] at hfits
      rw [List.length_cons] at hroom
      obtain ⟨last, hlast, hgroups, hother⟩ :=
        @ih (groups.insert (packKey level slot) count) (count + 1) hnodup.2 hfits.2 (by omega)
      have hapart : ∀ cell ∈ rest, packKey level slot ≠ packKey cell.2 cell.1 := by
        intro cell hcell hsame
        obtain ⟨hlevel, hslot⟩ := pack_key_injective hfits.1.2 hfits.1.1 (hfits.2 cell hcell).2
          (hfits.2 cell hcell).1 hsame
        subst hlevel hslot
        exact hnodup.1 hcell
      refine ⟨last, ?_, forall_mem_cons.2 ⟨?_, fun cell hcell => ?_⟩, fun key hkey => ?_⟩
      · unfold numberCells
        simp only [bind_ok, exists_unit, require_ok, hlast, length_cons]
        exact ⟨by omega, by rw [Nat.add_assoc, Nat.add_comm 1]⟩
      · rw [LevelGroups.group, hother _ hapart, Std.ExtTreeMap.getElem?_insert_self,
          idxOf_cons_self]
        rfl
      · rw [hgroups cell hcell, idxOf_cons_ne]
        · rw [Nat.succ_eq_add_one, Nat.add_assoc, Nat.add_comm 1]
        · rintro rfl
          exact hnodup.1 hcell
      · rw [List.forall_mem_cons] at hkey
        rw [hother key hkey.2, Std.ExtTreeMap.getElem?_insert, if_neg]
        exact fun heq => hkey.1 (Std.LawfulEqCmp.eq_of_compare heq).symm

variable {graph : HnswStorage V} {groups : LevelGroups} {slot level neighbor : Nat}

/-- The reverse of an edge of a level. -/
def reverseEdge (edge : Nat × Nat × Nat) : Nat × Nat × Nat :=
  (edge.1, edge.2.2, edge.2.1)

/-- The key of an edge: the number of its source cell, and its target. -/
def edgeKey (graph : HnswStorage V) (edge : Nat × Nat × Nat) : UInt64 :=
  packKey (graph.ownedLevels.idxOf (edge.2.1, edge.1)) edge.2.2

theorem owned_fits (hcells : graph.ownedLevels.length < 2 ^ 32) (h : graph.Owns slot level) :
    slot < 2 ^ 32 ∧ level < 2 ^ 32 ∧ graph.ownedLevels.idxOf (slot, level) < 2 ^ 32 := by
  have hslot := lt_of_owns h
  have hfit := graph.slots_fit
  have hindex := idxOf_lt_length_of_mem (mem_owned_levels.2 h : (slot, level) ∈ _)
  obtain ⟨node, hnode, hlevel⟩ := h
  have hsum : node.level + 1 ≤ (graph.nodes.map fun node => node.level + 1).sum :=
    le_sum_of_mem
      (List.mem_map_of_mem (f := fun node : HnswNode V => node.level + 1)
        (List.mem_of_getElem? hnode))
  rw [← length_owned_levels] at hsum
  unfold emptyNeighbor slotCount at *
  exact ⟨by omega, by omega, by omega⟩

theorem edge_key_injective (hcells : graph.ownedLevels.length < 2 ^ 32)
    {edge other : Nat × Nat × Nat} (hedge : graph.Owns edge.2.1 edge.1 ∧ graph.Owns edge.2.2 edge.1)
    (hother : graph.Owns other.2.1 other.1 ∧ graph.Owns other.2.2 other.1)
    (h : graph.edgeKey edge = graph.edgeKey other) : edge = other := by
  have hsource := owned_fits hcells hedge.1
  have hsource' := owned_fits hcells hother.1
  obtain ⟨hindex, htarget⟩ := pack_key_injective hsource.2.2 (owned_fits hcells hedge.2).1
    hsource'.2.2 (owned_fits hcells hother.2).1 h
  have hcell := idxOf_inj (mem_owned_levels.2 hedge.1 : (edge.2.1, edge.1) ∈ _) |>.1 hindex
  obtain ⟨hslot, hlevel⟩ := Prod.mk.inj hcell
  exact Prod.ext hlevel (Prod.ext hslot htarget)

theorem edge_keys_ok (hgroups : ∀ cell ∈ graph.ownedLevels,
      groups.group cell.2 cell.1 = .ok (graph.ownedLevels.idxOf cell)) (keys : UInt64 × UInt64) :
    graph.edgeKeys groups slot level (graph.ownedLevels.idxOf (slot, level)) neighbor = .ok keys ↔
      graph.Owns neighbor level ∧
        keys = (graph.edgeKey (level, slot, neighbor), graph.edgeKey (level, neighbor, slot)) := by
  unfold edgeKeys HnswStorage.level
  simp only [bind_ok, exists_unit, require_ok, pure_ok, node_ok]
  constructor
  · rintro ⟨_, ⟨node, hnode, rfl⟩, hlevel, target, htarget, rfl⟩
    have howns : graph.Owns neighbor level := ⟨node, hnode, hlevel⟩
    have hfound := hgroups (neighbor, level) (mem_owned_levels.2 howns)
    obtain rfl := Except.ok.inj (htarget.symm.trans hfound)
    exact ⟨howns, rfl⟩
  · rintro ⟨⟨node, hnode, hlevel⟩, rfl⟩
    exact ⟨_, ⟨node, hnode, rfl⟩, hlevel, _,
      hgroups (neighbor, level) (mem_owned_levels.2 ⟨node, hnode, hlevel⟩), rfl⟩

/-- The keys of a cell, when its list fits and its targets own the level. -/
theorem cell_keys_ok (hgroups : ∀ cell ∈ graph.ownedLevels,
      groups.group cell.2 cell.1 = .ok (graph.ownedLevels.idxOf cell)) {cell : Nat × Nat}
    (hcell : cell ∈ graph.ownedLevels) (keys : List (UInt64 × UInt64)) :
    graph.cellKeys groups cell = .ok keys ↔
      ((graph.adjacency cell.2 cell.1).length ≤ graph.capacityAt cell.2 ∧
        ∀ neighbor ∈ graph.adjacency cell.2 cell.1, graph.Owns neighbor cell.2) ∧
      keys = (graph.adjacency cell.2 cell.1).map fun neighbor =>
        (graph.edgeKey (cell.2, cell.1, neighbor), graph.edgeKey (cell.2, neighbor, cell.1)) := by
  unfold cellKeys
  simp only [bind_ok, exists_unit, require_ok, neighbors_ok, hgroups cell hcell]
  have hmap := fun values : List Nat => @map_m_iff _ _ _ _ values keys _ _
    fun neighbor _ keys => @edge_keys_ok _ graph groups cell.1 cell.2 neighbor hgroups keys
  constructor
  · rintro ⟨values, ⟨-, rfl⟩, hlength, source, hsource, hkeys⟩
    obtain rfl := Except.ok.inj hsource
    obtain ⟨howns, rfl⟩ := (hmap _).1 hkeys
    exact ⟨⟨hlength, howns⟩, rfl⟩
  · rintro ⟨⟨hlength, howns⟩, rfl⟩
    exact ⟨_, ⟨mem_owned_levels.1 hcell, rfl⟩, hlength, _, rfl, (hmap _).2 ⟨howns, rfl⟩⟩

theorem check_zip_ok {xs ys : List UInt64} {message : String} (h : xs.length = ys.length) :
    checkEach (xs.zip ys) (fun pair => require (pair.1 = pair.2) message) = .ok () ↔ xs = ys := by
  rw [check_each_ok]
  simp only [require_ok]
  constructor
  · intro hall
    refine ext_getElem h fun index hleft hright => ?_
    exact hall (xs[index], ys[index]) (List.mem_iff_getElem.2
      ⟨index, by rw [List.length_zip]; omega, getElem_zip⟩)
  · intro heq pair hpair
    obtain ⟨index, hindex, rfl⟩ := mem_iff_getElem.1 hpair
    simp only [List.getElem_zip, heq]

/-- What the audit asks of each cell: its list fits, and its targets own the level. -/
def CellsFit (graph : HnswStorage V) : Prop :=
  ∀ cell ∈ graph.ownedLevels, (graph.adjacency cell.2 cell.1).length ≤ graph.capacityAt cell.2 ∧
    ∀ neighbor ∈ graph.adjacency cell.2 cell.1, graph.Owns neighbor cell.2

theorem all_keys_ok (hgroups : ∀ cell ∈ graph.ownedLevels,
      groups.group cell.2 cell.1 = .ok (graph.ownedLevels.idxOf cell))
    (keys : List (List (UInt64 × UInt64))) :
    graph.ownedLevels.mapM (graph.cellKeys groups) = .ok keys → graph.CellsFit ∧
      keys.flatten =
        graph.edges.map fun edge => (graph.edgeKey edge, graph.edgeKey (reverseEdge edge)) := by
  intro h
  obtain ⟨hfit, rfl⟩ := (map_m_iff fun cell hcell found =>
    cell_keys_ok hgroups hcell found).1 h
  refine ⟨hfit, ?_⟩
  rw [edges, map_flatMap, ← flatMap_def]
  refine flatMap_congr fun _ _ => ?_
  rw [List.map_map]
  rfl

theorem all_keys_of_fit (hgroups : ∀ cell ∈ graph.ownedLevels,
      groups.group cell.2 cell.1 = .ok (graph.ownedLevels.idxOf cell)) (h : graph.CellsFit) :
    ∃ keys, graph.ownedLevels.mapM (graph.cellKeys groups) = .ok keys :=
  ⟨_, (map_m_iff fun _ hcell found => cell_keys_ok hgroups hcell found).2 ⟨h, rfl⟩⟩

/-- The sorted keys of the edges are those of the reverses when the edges are closed under
reversal. -/
theorem compare_keys_ok (hnodup : ∀ level slot, (graph.adjacency level slot).Nodup)
    (hcells : graph.ownedLevels.length < 2 ^ 32) (h : graph.CellsFit)
    {keys : List (UInt64 × UInt64)} {message : String} (hkeys : keys =
      graph.edges.map fun edge => (graph.edgeKey edge, graph.edgeKey (reverseEdge edge))) :
    checkEach (((keys.map (·.1)).mergeSort (· ≤ ·)).zip ((keys.map (·.2)).mergeSort (· ≤ ·)))
        (fun pair => require (pair.1 = pair.2) message) = .ok () ↔
      ∀ edge ∈ graph.edges, reverseEdge edge ∈ graph.edges := by
  have hends : ∀ edge ∈ graph.edges, graph.Owns edge.2.1 edge.1 ∧ graph.Owns edge.2.2 edge.1 := by
    intro edge hedge
    have hsource := owns_of_mem (mem_edges.1 hedge)
    exact ⟨hsource, (h (edge.2.1, edge.1) (mem_owned_levels.2 hsource)).2 _ (mem_edges.1 hedge)⟩
  have hboth : ∀ edge ∈ graph.edges ++ graph.edges.map reverseEdge,
      graph.Owns edge.2.1 edge.1 ∧ graph.Owns edge.2.2 edge.1 := by
    intro edge hedge
    rcases mem_append.1 hedge with hforward | hback
    · exact hends edge hforward
    · obtain ⟨other, hother, rfl⟩ := mem_map.1 hback
      exact (hends other hother).symm
  rw [check_zip_ok (by simp), hkeys, map_map, map_map]
  exact sorted_keys_eq_iff (· ≤ ·) (edges_nodup hnodup) (fun _ _ => rfl)
    fun edge hedge other hother => edge_key_injective hcells (hboth edge hedge)
      (hboth other hother)

/-- The audit accepts when the cells fit and the edges are closed under reversal. -/
theorem audit_accepts_fit (h : graph.LocallyValid) (hcells : graph.ownedLevels.length < 2 ^ 32) :
    (∃ stats, graph.auditBidirectionalLinks = .ok stats) ↔
      graph.CellsFit ∧ ∀ edge ∈ graph.edges, reverseEdge edge ∈ graph.edges := by
  have hfits : ∀ cell ∈ graph.ownedLevels, cell.1 < 2 ^ 32 ∧ cell.2 < 2 ^ 32 := fun cell hcell =>
    have howned := owned_fits hcells (mem_owned_levels.1 hcell)
    ⟨howned.1, howned.2.1⟩
  have hroom : 0 + graph.ownedLevels.length ≤ emptyNeighbor := by
    unfold emptyNeighbor
    omega
  obtain ⟨groups, hnumber, hgroups, -⟩ := @number_cells_ok _ ∅ 0
    (owned_levels_nodup graph) hfits hroom
  simp only [Nat.zero_add] at hnumber hgroups
  unfold auditBidirectionalLinks
  simp only [bind_ok, exists_unit, require_ok, hnumber, pure_ok]
  constructor
  · rintro ⟨stats, -, pair, hpair, keys, hkeys, hzip, -⟩
    obtain rfl := Except.ok.inj hpair
    obtain ⟨hfit, hflat⟩ := all_keys_ok hgroups keys hkeys
    exact ⟨hfit, (compare_keys_ok h.nodup hcells hfit hflat).1 hzip⟩
  · rintro ⟨hfit, hclosed⟩
    obtain ⟨keys, hkeys⟩ := all_keys_of_fit hgroups hfit
    have hflat := (all_keys_ok hgroups keys hkeys).2
    exact ⟨_, h.ready, _, rfl, keys, hkeys, (compare_keys_ok h.nodup hcells hfit hflat).2 hclosed,
      rfl⟩

/-- The link audit decides symmetry exactly: on a locally valid graph whose cells can be numbered
it accepts when on every level every target owns the level, every edge has its reverse and no list
exceeds the capacity, and only then. -/
theorem audit_accepts_iff (graph : HnswStorage V) (h : graph.LocallyValid)
    (hcells : graph.ownedLevels.length < 2 ^ 32) :
    (∃ stats, graph.auditBidirectionalLinks = .ok stats) ↔
      ∀ level slot, (graph.adjacency level slot).length ≤ graph.capacityAt level ∧
        ∀ neighbor ∈ graph.adjacency level slot,
          graph.Owns neighbor level ∧ slot ∈ graph.adjacency level neighbor := by
  rw [audit_accepts_fit h hcells]
  constructor
  · rintro ⟨hfit, hclosed⟩ level slot
    have howned : ∀ neighbor ∈ graph.adjacency level slot, (slot, level) ∈ graph.ownedLevels :=
      fun neighbor hneighbor => mem_owned_levels.2 (owns_of_mem hneighbor)
    refine ⟨?_, fun neighbor hneighbor => ?_⟩
    · rcases eq_nil_or_concat (graph.adjacency level slot) with hnil | ⟨front, last, hlast⟩
      · rw [hnil]
        exact Nat.zero_le _
      · have hmem : last ∈ graph.adjacency level slot := by simp [hlast]
        exact (hfit _ (howned last hmem)).1
    · refine ⟨(hfit _ (howned neighbor hneighbor)).2 neighbor hneighbor, ?_⟩
      exact mem_edges.1 (hclosed (level, slot, neighbor) (mem_edges.2 hneighbor))
  · intro hall
    refine ⟨fun cell _ => ⟨(hall cell.2 cell.1).1, fun neighbor hneighbor =>
      ((hall cell.2 cell.1).2 neighbor hneighbor).1⟩, fun edge hedge => ?_⟩
    exact mem_edges.2 ((hall edge.1 edge.2.1).2 _ (mem_edges.1 hedge)).2

end HnswStorage

/-- Two linked slots and one without edges. -/
theorem audit_accepts_iff_narrow :
    ∃ stats, narrowGraph.auditBidirectionalLinks = .ok stats := by
  have hlinked := narrow_graph_well_linked
  have hvalid : narrowGraph.LocallyValid := by
    refine ⟨rfl, fun level slot neighbor hneighbor => ?_, fun level => (hlinked.linked level).nodup,
      fun level => (hlinked.linked level).irrefl⟩
    exact HnswStorage.lt_of_owns (HnswStorage.owns_target hlinked hneighbor)
  refine (HnswStorage.audit_accepts_iff narrowGraph hvalid (by decide)).2 fun level slot => ?_
  exact ⟨hlinked.bounded level slot, fun neighbor hneighbor =>
    ⟨HnswStorage.owns_target hlinked hneighbor, (hlinked.linked level).symm _ _ hneighbor⟩⟩

end Akasha.Hnsw

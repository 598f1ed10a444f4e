import Akasha.Index.HnswCore

/-!
# Searching the graph

A search descends greedily through the upper levels and explores the lowest one best first. Every
slot is scored once; a slot that is not current or not admitted is no result, but the traversal
goes through it. The binary heaps of `hnsw_heap.mojo` order their items totally, so that a heap is
kept here as the list in its order: the frontier yields its first item, and the retained results
are the best `ef` of what was offered. Widening repeats the search of the lowest level with a
larger `ef`.
-/

namespace Akasha.Hnsw

open Lib

variable {V : Type}

/-- Which slots may become results. -/
structure HnswResultAdmission where
  allowAll : Bool
  validate : Nat → Except String Unit
  allowsItem : Nat → Int64 → Except String Bool

/-- `HnswSearchAdmission()`: every slot. -/
def admitAll : HnswResultAdmission where
  allowAll := true
  validate := fun _ => .ok ()
  allowsItem := fun _ _ => .ok true

/-- `ResultMaxHeap.offer`: keep the best items. -/
def offer (heap : List HnswHeapItem) (item : HnswHeapItem) (capacity : Nat) :
    List HnswHeapItem :=
  (heap.orderedInsert ItemLe item).take capacity

/-- The state of one layer search: the slots seen, the frontier, the retained radius and the
results of a filtered search. -/
structure HnswSearchScratch where
  visited : List Nat
  candidates : List HnswHeapItem
  results : List HnswHeapItem
  filteredResults : List HnswHeapItem

/-- Whether a distance is worse than every retained one of a full radius. -/
def HnswSearchScratch.beyond (scratch : HnswSearchScratch) (ef : Nat) (distance : Rat) : Bool :=
  ef ≤ scratch.results.length &&
    (scratch.results.getLast?).any fun worst => decide (worst.distance < distance)

/-- Add a scored slot to the frontier unless it is beyond the radius. -/
def HnswSearchScratch.push (scratch : HnswSearchScratch) (ef : Nat) (item : HnswHeapItem) :
    HnswSearchScratch :=
  if scratch.beyond ef item.distance then scratch
  else { scratch with candidates := scratch.candidates.orderedInsert ItemLe item }

namespace HnswStorage

variable (graph : HnswStorage V) (dispatcher : MetricDispatcher V) (query : V)

/-- The item of a slot, with its distance from the query. -/
def itemAt (slot : Nat) : Except String HnswHeapItem := do
  let node ← graph.node slot
  pure ⟨node.id, slot, dispatcher.distance query node.vector⟩

/-- The check on the target of an edge that a traversal follows. -/
def checkTarget (level neighbor : Nat) : Except String Unit := do
  let owned ← graph.level neighbor
  require (level ≤ owned) "HNSW edge targets a node below its graph level"

/-- `_validate_search_boundary`. -/
def validateSearchBoundary (entry level : Nat) : Except String Unit := do
  require (graph.valid = true) "cannot search an invalid HNSW graph"
  require (0 < graph.slotCount) "cannot search an empty HNSW graph"
  require (dispatcher.identity.dimension = graph.config.identity.dimension)
    "metric dispatcher dimension does not match HNSW graph"
  dispatcher.validatePrepared query
  require (entry < graph.slotCount) "HNSW entry slot out of bounds"
  let owned ← graph.level entry
  require (level ≤ owned) "HNSW entry does not own requested level"
  let edges ← graph.neighbors entry level
  checkEach edges (graph.checkTarget level)

/-! ## Greedy descent -/

/-- The best of an item and the neighbours that follow. -/
def greedyBest (level : Nat) : HnswHeapItem → List Nat → Except String HnswHeapItem
  | best, [] => .ok best
  | best, neighbor :: rest => do
      graph.checkTarget level neighbor
      let item ← graph.itemAt dispatcher query neighbor
      greedyBest level (if isBetter item best then item else best) rest

/-- Move to the best neighbour while it is better. -/
def greedyLoop (level : Nat) : Nat → HnswHeapItem → Except String HnswHeapItem
  | 0, current => .ok current
  | fuel + 1, current => do
      let edges ← graph.neighbors current.slot level
      let best ← graph.greedyBest dispatcher query level current edges
      if isBetter best current then greedyLoop level fuel best else pure current

/-- `greedy_descent`: every move finds a better slot, so there are fewer than slots. -/
def greedyDescent (entry level : Nat) : Except String HnswHeapItem := do
  graph.validateSearchBoundary dispatcher query entry level
  let start ← graph.itemAt dispatcher query entry
  graph.greedyLoop dispatcher query level graph.slotCount start

/-- Descend from a level to the one above `bottom`. -/
def descend (bottom : Nat) : Nat → Nat → Except String Nat
  | 0, current => .ok current
  | steps + 1, current => do
      let found ← graph.greedyDescent dispatcher query current (bottom + steps + 1)
      descend bottom steps found.slot

/-! ## Searching one layer -/

variable (admission : HnswResultAdmission) (ef : Nat)

/-- `_consider_result_admission`. -/
def considerResult (item : HnswHeapItem) (results : List HnswHeapItem) :
    Except String (List HnswHeapItem) := do
  if graph.isCurrent item.slot then do
    let allowed ← admission.allowsItem item.slot item.id
    if allowed then pure (offer results item ef) else pure results
  else pure results

/-- Offer a scored slot: the radius of a filtered search does not depend on the filter. -/
def considerItem (item : HnswHeapItem) (scratch : HnswSearchScratch) :
    Except String HnswSearchScratch := do
  if admission.allowAll then do
    let results ← graph.considerResult admission ef item scratch.results
    pure { scratch with results := results }
  else do
    let results ← graph.considerResult admission ef item scratch.filteredResults
    pure { scratch with
      results := offer scratch.results item ef
      filteredResults := results }

/-- Score a slot for the first time. -/
def visit (slot : Nat) (scratch : HnswSearchScratch) :
    Except String (HnswHeapItem × HnswSearchScratch) := do
  let item ← graph.itemAt dispatcher query slot
  let admitted ← graph.considerItem admission ef item
    { scratch with visited := slot :: scratch.visited }
  pure (item, admitted)

/-- The neighbours of an expanded slot. -/
def expand (level : Nat) : List Nat → HnswSearchScratch → Except String HnswSearchScratch
  | [], scratch => .ok scratch
  | neighbor :: rest, scratch => do
      graph.checkTarget level neighbor
      if neighbor ∈ scratch.visited then expand level rest scratch
      else do
        let seen ← graph.visit dispatcher query admission ef neighbor scratch
        expand level rest (seen.2.push ef seen.1)

/-- Expand the best slot of the frontier until it is empty or beyond the radius. -/
def searchLoop (level : Nat) : Nat → HnswSearchScratch → Except String HnswSearchScratch
  | 0, scratch => .ok scratch
  | fuel + 1, scratch =>
      match scratch.candidates with
      | [] => .ok scratch
      | candidate :: rest =>
          if scratch.beyond ef candidate.distance then .ok scratch
          else do
            let edges ← graph.neighbors candidate.slot level
            let expanded ← graph.expand dispatcher query admission ef level edges
              { scratch with candidates := rest }
            searchLoop level fuel expanded

/-- `search_layer`: a slot enters the frontier once, so there are no more rounds than slots. -/
def searchLayer (entry level k : Nat) : Except String (List HnswHeapItem) := do
  require (0 < k) "HNSW search k must be positive"
  require (0 < ef) "HNSW search ef must be positive"
  require (k ≤ ef) "HNSW search ef must be at least k"
  graph.validateSearchBoundary dispatcher query entry level
  admission.validate graph.slotCount
  let seen ← graph.visit dispatcher query admission ef entry ⟨[], [], [], []⟩
  let finished ← graph.searchLoop dispatcher query admission ef level graph.slotCount
    { seen.2 with candidates := [seen.1] }
  pure ((if admission.allowAll then finished.results else finished.filteredResults).take k)

end HnswStorage

end Akasha.Hnsw

import Akasha.Index.Metadata

/-!
# Evaluating a filter with the metadata index

`evaluateExpression` computes one bitmap for each node of an arena. The bitmap of a node holds
the live slots whose fields give the node the value true, so the root's bitmap is the set of
live slots whose fields the expression matches.
-/

namespace Akasha.Query

open Lib Index List

/-- The children of an `all` node, until no candidate is left. -/
def intersectChildren (results : List Bitmap) : Bitmap → List Nat → Except String Bitmap
  | result, [] => pure result
  | result, child :: children => do
      let next ← result.intersection (results.getD child (Bitmap.ofSize 0))
      if next.count = 0 then pure next else intersectChildren results next children

/-- The children of an `any` node. -/
def uniteChildren (results : List Bitmap) : Bitmap → List Nat → Except String Bitmap
  | result, [] => pure result
  | result, child :: children => do
      let next ← result.unionWith (results.getD child (Bitmap.ofSize 0))
      uniteChildren results next children

/-- The bitmap of one node from the bitmaps of the nodes before it. -/
def evaluateNode (index : MetadataIndex) (results : List Bitmap) (node : FilterNode) :
    Except String Bitmap :=
  match node.kind, node.condition with
  | .condition, some condition => index.evaluateCondition condition
  | .condition, none => throw "condition expression has invalid shape"
  | .all, _ => intersectChildren results index.liveUniverse node.children
  | .any, _ => uniteChildren results (Bitmap.ofSize index.slotCount) node.children
  | .negate, _ =>
      index.liveUniverse.difference (results.getD (node.children.headD 0) (Bitmap.ofSize 0))

/-- The bitmaps of the nodes, after those already computed. -/
def evaluateNodes (index : MetadataIndex) (results : List Bitmap) :
    List FilterNode → Except String (List Bitmap)
  | [] => pure results
  | node :: nodes => do
      let result ← evaluateNode index results node
      evaluateNodes index (results ++ [result]) nodes

/-- `evaluate_expression`. -/
def evaluateExpression (index : MetadataIndex) (expression : FilterExpression) :
    Except String Bitmap := do
  expression.validate
  let results ← evaluateNodes index [] expression.nodes
  pure (results.getD expression.root (Bitmap.ofSize 0))

/-! ## The bitmap of a node -/

/-- The bitmap holds the live slots whose fields have the property. -/
structure Selects (index : MetadataIndex) (value : List DocumentField → Bool) (bitmap : Bitmap) :
    Prop where
  well_formed : bitmap.WellFormed
  size_eq : bitmap.size = index.slotCount
  has_eq : ∀ o, bitmap.has o = (index.live.has o && value (index.fieldsAt o))

variable {index : MetadataIndex} {results : List Bitmap}

/-- Intersecting with the children selects what all of them select. -/
theorem intersect_children_selects {children : List Nat} {value : List DocumentField → Bool}
    (values : Nat → List DocumentField → Bool) {bitmap : Bitmap}
    (h : Selects index value bitmap)
    (hchildren : ∀ child ∈ children,
      Selects index (values child) (results.getD child (Bitmap.ofSize 0))) :
    ∃ result, intersectChildren results bitmap children = .ok result ∧
      Selects index (fun fields => value fields && children.all (values · fields)) result := by
  induction children generalizing bitmap value with
  | nil => exact ⟨bitmap, rfl, h.well_formed, h.size_eq, fun o => by simpa using h.has_eq o⟩
  | cons child children ih =>
      have hchild := hchildren child mem_cons_self
      obtain ⟨next, hnext, hwf, hsize, hbits⟩ := Bitmap.intersection_ok h.well_formed
        hchild.well_formed (h.size_eq.trans hchild.size_eq.symm)
      have hselects : Selects index (fun fields => value fields && values child fields) next :=
        ⟨hwf, hsize.trans h.size_eq, fun o => by
          rw [hbits, h.has_eq, hchild.has_eq]
          cases index.live.has o <;> simp⟩
      by_cases hcount : next.count = 0
      · -- No candidate is left, so the other children cannot add one.
        refine ⟨next, ?_, hwf, hselects.size_eq, fun o => ?_⟩
        · rw [intersectChildren, hnext]
          exact if_pos hcount
        · have hnone := hwf.has_eq_false hcount o
          have hvalue := hselects.has_eq o
          rw [hnone] at hvalue
          rw [hnone, all_cons, ← Bool.and_assoc (value _), ← Bool.and_assoc, ← hvalue,
            Bool.false_and]
      · obtain ⟨result, hresult, hr⟩ := ih hselects
          fun c hc => hchildren c (List.mem_cons_of_mem _ hc)
        refine ⟨result, ?_, hr.well_formed, hr.size_eq, fun o => ?_⟩
        · rw [intersectChildren, hnext]
          exact (if_neg hcount).trans hresult
        · rw [hr.has_eq, all_cons, Bool.and_assoc (value _)]

/-- Uniting with the children selects what some of them selects. -/
theorem unite_children_selects {children : List Nat} {value : List DocumentField → Bool}
    (values : Nat → List DocumentField → Bool) {bitmap : Bitmap}
    (h : Selects index value bitmap)
    (hchildren : ∀ child ∈ children,
      Selects index (values child) (results.getD child (Bitmap.ofSize 0))) :
    ∃ result, uniteChildren results bitmap children = .ok result ∧
      Selects index (fun fields => value fields || children.any (values · fields)) result := by
  induction children generalizing bitmap value with
  | nil => exact ⟨bitmap, rfl, h.well_formed, h.size_eq, fun o => by simpa using h.has_eq o⟩
  | cons child children ih =>
      have hchild := hchildren child mem_cons_self
      obtain ⟨next, hnext, hwf, hsize, hbits⟩ := Bitmap.union_with_ok h.well_formed
        hchild.well_formed (h.size_eq.trans hchild.size_eq.symm)
      have hselects : Selects index (fun fields => value fields || values child fields) next :=
        ⟨hwf, hsize.trans h.size_eq, fun o => by
          rw [hbits, h.has_eq, hchild.has_eq, Bool.and_or_distrib_left]⟩
      obtain ⟨result, hresult, hr⟩ := ih hselects
        fun c hc => hchildren c (List.mem_cons_of_mem _ hc)
      refine ⟨result, ?_, hr.well_formed, hr.size_eq, fun o => ?_⟩
      · rw [uniteChildren, hnext]
        exact hresult
      · rw [hr.has_eq, any_cons, Bool.or_assoc]

theorem evaluate_condition_bulk (h : index.Consistent) {condition : FilterCondition}
    {bitmap : Bitmap} (hrun : index.evaluateCondition condition = .ok bitmap) :
    index.bulkLoading = false := by
  by_cases hvalue : condition.value.kind = 1 ∨ condition.value.kind = 4
  · simp only [MetadataIndex.evaluateCondition, if_pos hvalue, KeywordIndex.evaluate,
      bind_ok, require_ok, exists_unit] at hrun
    obtain ⟨-, candidates, ⟨-, -, hbulk, -⟩, -⟩ := hrun
    rw [← h.tracked.keyword_bulk]
    simpa using hbulk
  · simp only [MetadataIndex.evaluateCondition, if_neg hvalue, SortedBlockIndex.evaluate,
      bind_ok, require_ok, exists_unit] at hrun
    obtain ⟨-, candidates, ⟨-, hbulk, -⟩, -⟩ := hrun
    rw [← h.tracked.number_bulk]
    simpa using hbulk

/-- A node's bitmap selects its value, given those of its children. A node whose evaluation
returns is as good as one outside a bulk load. -/
theorem evaluate_node_selects (h : index.Consistent) {node : FilterNode}
    (values : List DocumentField → List Bool)
    (hshape : validateShape node.kind node.condition node.children.length = .ok ())
    (hchildren : ∀ child ∈ node.children, Selects index
      (fun fields => (values fields).getD child false) (results.getD child (Bitmap.ofSize 0)))
    (hrun : index.bulkLoading = false ∨ ∃ result, evaluateNode index results node = .ok result) :
    ∃ result, evaluateNode index results node = .ok result ∧
      Selects index (fun fields => nodeHolds fields (values fields) node) result := by
  have hlive : Selects index (fun _ => true) index.liveUniverse :=
    ⟨h.live_well_formed, h.live_size, fun o => (Bool.and_true _).symm⟩
  unfold evaluateNode nodeHolds at *
  rcases validate_shape_ok hshape with ⟨hkind, condition, hcond⟩ | ⟨hkind, hcond, hone⟩
  · simp only [hkind, hcond] at hrun ⊢
    have hbulk : index.bulkLoading = false := by
      rcases hrun with hbulk | ⟨result, hresult⟩
      · exact hbulk
      · exact evaluate_condition_bulk h hresult
    obtain ⟨bitmap, hbitmap, hwf, hsize, hbits⟩ :=
      MetadataIndex.evaluate_condition_ok h hbulk condition
    exact ⟨bitmap, hbitmap, hwf, hsize, hbits⟩
  · cases hk : node.kind with
    | condition => exact absurd hk hkind
    | all =>
        obtain ⟨result, hresult, hr⟩ := intersect_children_selects
          (fun child fields => (values fields).getD child false) hlive hchildren
        refine ⟨result, hresult, hr.well_formed, hr.size_eq, fun o => ?_⟩
        rw [hr.has_eq, Bool.true_and, combine, all_map]
        rfl
    | any =>
        have hnone : Selects index (fun _ => false) (Bitmap.ofSize index.slotCount) :=
          ⟨Bitmap.of_size_well_formed _, rfl, fun o => by
            rw [Bitmap.of_size_has, Bool.and_false]⟩
        obtain ⟨result, hresult, hr⟩ := unite_children_selects
          (fun child fields => (values fields).getD child false) hnone hchildren
        refine ⟨result, hresult, hr.well_formed, hr.size_eq, fun o => ?_⟩
        rw [hr.has_eq, Bool.false_or, combine, any_map]
        rfl
    | negate =>
        obtain ⟨child, hchild⟩ := length_eq_one_iff.1 (hone hk)
        have hc := hchildren child (by rw [hchild]; exact mem_singleton_self _)
        obtain ⟨result, hresult, hwf, hsize, hbits⟩ := Bitmap.difference_ok h.live_well_formed
          hc.well_formed (h.live_size.trans hc.size_eq.symm)
        refine ⟨result, ?_, hwf, hsize.trans h.live_size, fun o => ?_⟩
        · simp only [hchild, headD_cons]
          exact hresult
        · rw [hbits, hc.has_eq, hchild, combine, map_singleton, headD_cons]
          cases index.live.has o <;> simp

/-- The bitmaps of an arena select the values of its nodes. -/
theorem evaluate_nodes_selects (h : index.Consistent) (results : List Bitmap)
    {nodes : List FilterNode} (values : List DocumentField → List Bool)
    (hlength : ∀ fields, (values fields).length = results.length)
    (hvalid : ArenaValid results.length nodes)
    (hresults : ∀ i < results.length, Selects index
      (fun fields => (values fields).getD i false) (results.getD i (Bitmap.ofSize 0)))
    (hrun : index.bulkLoading = false ∨ ∃ all, evaluateNodes index results nodes = .ok all) :
    ∃ all, evaluateNodes index results nodes = .ok all ∧
      ∀ i < results.length + nodes.length, Selects index
        (fun fields => (arenaHoldsFrom fields (values fields) nodes).getD i false)
        (all.getD i (Bitmap.ofSize 0)) := by
  induction nodes generalizing results values with
  | nil => exact ⟨results, rfl, hresults⟩
  | cons node nodes ih =>
      obtain ⟨hshape, hchildren⟩ := hvalid 0 node rfl
      obtain ⟨result, hresult, hselects⟩ := evaluate_node_selects h values hshape
        (fun child hchild => hresults child (hchildren child hchild)) (by
          refine hrun.imp id fun ⟨all, hall⟩ => ?_
          rw [evaluateNodes, bind_ok] at hall
          exact ⟨hall.choose, hall.choose_spec.1⟩)
      have hnext : ∀ i < (results ++ [result]).length, Selects index
          (fun fields => (values fields ++ [nodeHolds fields (values fields) node]).getD i false)
          ((results ++ [result]).getD i (Bitmap.ofSize 0)) := by
        intro i hi
        by_cases hlt : i < results.length
        · have hget : ∀ fields, (values fields ++ [nodeHolds fields (values fields) node]).getD i
              false = (values fields).getD i false := fun fields =>
            getD_append _ _ _ _ (by rw [hlength]; exact hlt)
          simp only [hget, getD_append _ _ _ _ hlt]
          exact hresults i hlt
        · obtain rfl : i = results.length := by
            rw [List.length_append, length_singleton] at hi
            omega
          have hget : ∀ fields, (values fields ++ [nodeHolds fields (values fields) node]).getD
              results.length false = nodeHolds fields (values fields) node := by
            intro fields
            rw [List.getD_append_right _ _ _ _ (by rw [hlength]), hlength, Nat.sub_self]
            rfl
          simp only [hget, getD_append_right _ _ _ _ (Nat.le_refl _), Nat.sub_self]
          exact hselects
      obtain ⟨all, hall, hselected⟩ := ih
        (results ++ [result])
        (fun fields => values fields ++ [nodeHolds fields (values fields) node])
        (fun fields => by rw [List.length_append, length_append, hlength]; rfl)
        (fun j n hj => by
          obtain ⟨hs, hc⟩ := hvalid (j + 1) n hj
          refine ⟨hs, fun child hchild => ?_⟩
          have := hc child hchild
          rw [List.length_append, length_singleton]
          omega)
        hnext (by
          refine hrun.imp id fun ⟨all, hall⟩ => ?_
          rw [evaluateNodes, hresult] at hall
          exact ⟨all, hall⟩)
      refine ⟨all, ?_, fun i hi => hselected i ?_⟩
      · rw [evaluateNodes, hresult]
        exact hall
      · rw [List.length_append, length_singleton]
        rw [List.length_cons] at hi
        omega

theorem evaluate_expression_selects (h : index.Consistent) {expression : FilterExpression}
    (hvalid : expression.validate = .ok ())
    (hrun : index.bulkLoading = false ∨ ∃ bitmap, evaluateExpression index expression = .ok bitmap) :
    ∃ bitmap, evaluateExpression index expression = .ok bitmap ∧
      Selects index expression.holds bitmap := by
  obtain ⟨hroot, harena⟩ := FilterExpression.validate_ok hvalid
  obtain ⟨all, hall, hselects⟩ := evaluate_nodes_selects h [] (fun _ => [])
    (fun _ => rfl) harena (by simp) (by
      refine hrun.imp id fun ⟨bitmap, hbitmap⟩ => ?_
      simp only [evaluateExpression, bind_ok] at hbitmap
      obtain ⟨-, -, all, hall, -⟩ := hbitmap
      exact ⟨all, hall⟩)
  refine ⟨all.getD expression.root (Bitmap.ofSize 0), ?_, hselects expression.root (by simpa)⟩
  simp only [evaluateExpression, hvalid, hall]
  rfl

/-! ## Filters on a run of the index -/

/-- The record evaluator accepts the fields. -/
def Accepts (expression : FilterExpression) (fields : List DocumentField) : Prop :=
  ∃ enough, ∀ rounds, enough ≤ rounds →
    matchesExpression rounds fields expression = .ok (some true)

theorem accepts_iff {expression : FilterExpression} (hvalid : expression.validate = .ok ())
    (fields : List DocumentField) :
    Accepts expression fields ↔ expression.holds fields = true := by
  obtain ⟨enough, henough⟩ := matches_expression_ok fields hvalid
  constructor
  · rintro ⟨other, hother⟩
    have h₁ := henough (max enough other) (Nat.le_max_left _ _)
    have h₂ := hother (max enough other) (Nat.le_max_right _ _)
    rw [h₁] at h₂
    exact Option.some.inj (Except.ok.inj h₂)
  · intro h
    rw [h] at henough
    exact ⟨enough, henough⟩

/-- A filter evaluated with the index, in any state the index can reach, selects exactly the live
slots whose current fields the record evaluator accepts; the record evaluator computes the
meaning of the tree the filter was built from. The index evaluates it except during a bulk
load. -/
theorem evaluate_expression_eq_matches (ops : List MetadataIndex.MetadataOp) {tree : FilterTree}
    {expression : FilterExpression} (hbuild : tree.toExpression = .ok expression) :
    (∀ fields, ∃ enough, ∀ rounds, enough ≤ rounds →
        matchesExpression rounds fields expression = .ok (some (tree.holds fields))) ∧
      ((MetadataIndex.runOps ops).1.bulkLoading = false →
        ∃ bitmap, evaluateExpression (MetadataIndex.runOps ops).1 expression = .ok bitmap) ∧
      ∀ bitmap, evaluateExpression (MetadataIndex.runOps ops).1 expression = .ok bitmap →
        bitmap.size = (MetadataIndex.runOps ops).1.slotCount ∧
        ∀ ordinal id, (MetadataIndex.runOps ops).1.ids[ordinal]? = some id →
          (bitmap.contains ordinal = .ok true ↔
            ∃ fields, (MetadataIndex.runOps ops).2 id = some fields ∧
              (MetadataIndex.runOps ops).1.fieldsAt ordinal = fields ∧
              Accepts expression fields) := by
  obtain ⟨hconsistent, hcurrent⟩ := MetadataIndex.run_ops_current ops
  have hvalid : expression.validate = .ok () := (to_expression_holds [] hbuild).1
  refine ⟨fun fields => ?_, fun hbulk => ?_, fun bitmap hbitmap => ?_⟩
  · rw [← (to_expression_holds fields hbuild).2]
    exact matches_expression_ok fields hvalid
  · obtain ⟨bitmap, hbitmap, -⟩ := evaluate_expression_selects hconsistent hvalid (.inl hbulk)
    exact ⟨bitmap, hbitmap⟩
  · obtain ⟨result, hresult, hselects⟩ := evaluate_expression_selects hconsistent hvalid
      (.inr ⟨bitmap, hbitmap⟩)
    obtain rfl : result = bitmap := Except.ok.inj (hresult.symm.trans hbitmap)
    refine ⟨hselects.size_eq, fun ordinal id hid => ?_⟩
    have hlt := (List.getElem?_eq_some_iff.1 hid).1
    rw [Bitmap.contains_ok (by rw [hselects.size_eq]; exact hlt), hselects.has_eq,
      hcurrent.shown ordinal id hid]
    simp only [accepts_iff hvalid]
    cases (MetadataIndex.runOps ops).1.live.has ordinal <;> simp

/-- The fields of a sample point. -/
def sampleFields : List DocumentField :=
  [⟨"lang", .string "en"⟩, ⟨"year", .integer 2020⟩]

/-- The year is before 2010. -/
def sampleCondition : FilterCondition :=
  ⟨"year", .lessThan, .integer 2010, by decide +kernel, rfl⟩

/-- An index that has seen one write and one delete. -/
def sampleOps : List MetadataIndex.MetadataOp :=
  [.upsert 7 sampleFields (by decide), .delete 8]

theorem evaluate_expression_eq_matches_sample :
    ∃ bitmap, evaluateExpression (MetadataIndex.runOps sampleOps).1
        ⟨[⟨.condition, some sampleCondition, []⟩, ⟨.negate, none, [0]⟩], 1⟩ = .ok bitmap ∧
      bitmap.contains 0 = .ok true := by
  obtain ⟨hmatches, hruns, hbits⟩ := @evaluate_expression_eq_matches sampleOps
    (.negate (.condition sampleCondition))
    ⟨[⟨.condition, some sampleCondition, []⟩, ⟨.negate, none, [0]⟩], 1⟩ (by decide +kernel)
  obtain ⟨bitmap, hbitmap⟩ := hruns (by decide +kernel)
  refine ⟨bitmap, hbitmap, ((hbits bitmap hbitmap).2 0 7 (by decide +kernel)).2
    ⟨sampleFields, by decide +kernel, by decide +kernel, ?_⟩⟩
  obtain ⟨enough, henough⟩ := hmatches sampleFields
  exact ⟨enough, henough⟩

end Akasha.Query

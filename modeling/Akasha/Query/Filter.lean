import Akasha.Document.Codec
import Mathlib.Data.List.GetD

/-!
# Filter expressions

A filter is a Boolean expression over typed field comparisons. `FilterTree` is what a caller
writes with `condition`, `all`, `any` and `negate`; `FilterExpression` is the flat arena those
constructors build, children before parents, and `matchesExpression` is the stack machine that
runs an arena on the fields of a record. The meaning of an arena is `arenaHolds`, one value per
node in order: the machine computes the root's value, and building an arena from a tree keeps
the tree's meaning.
-/

namespace Akasha

open Lib List

/-- A `Float64` that is not NaN compares as a sign and a magnitude: both zeros are 0. -/
def F64.order (x : F64) : Int :=
  let magnitude : Int := (x.bits.toNat % 2 ^ 63 : Nat)
  if x.bits.toNat / 2 ^ 63 = 0 then magnitude else -magnitude

/-- `PayloadValue.floating` raises on a value that is not finite. -/
def PayloadValue.isConstructible : PayloadValue → Bool
  | .floating value => value.isFinite
  | _ => true

namespace Query

/-! ## Conditions -/

/-- The comparison of a condition. -/
inductive FilterOperator where
  | equal
  | notEqual
  | lessThan
  | lessOrEqual
  | greaterThan
  | greaterOrEqual
deriving DecidableEq, Repr

/-- The operators that need an order. -/
def FilterOperator.isRange : FilterOperator → Bool
  | .equal | .notEqual => false
  | _ => true

/-- `_validate_condition`. The operator and the kind of the value are known by their types. -/
def validateCondition (name : String) (operatorKind : FilterOperator) (value : PayloadValue) :
    Except String Unit := do
  validateFieldName name
  require (¬ (operatorKind.isRange ∧ (value.kind = 1 ∨ value.kind = 4)))
    "range filters require an integer or float value"

/-- One validated strict typed field comparison. -/
structure FilterCondition where
  name : String
  operatorKind : FilterOperator
  value : PayloadValue
  valid : validateCondition name operatorKind value = .ok ()
  constructible : value.isConstructible
deriving DecidableEq

/-- `FilterCondition.validate`, which its constructor has already run. -/
def FilterCondition.validate (condition : FilterCondition) : Except String Unit :=
  validateCondition condition.name condition.operatorKind condition.value

theorem FilterCondition.validate_ok (condition : FilterCondition) :
    condition.validate = .ok () :=
  condition.valid

/-- `_compare_ints` and `_compare_floats`, on the order of the values. -/
def compareOrdered (left right : Int) : FilterOperator → Bool
  | .equal => left = right
  | .notEqual => left ≠ right
  | .lessThan => left < right
  | .lessOrEqual => left ≤ right
  | .greaterThan => left > right
  | .greaterOrEqual => left ≥ right

def compareInts (left right : Int64) (operatorKind : FilterOperator) : Bool :=
  compareOrdered left.toInt right.toInt operatorKind

def compareFloats (left right : F64) (operatorKind : FilterOperator) : Bool :=
  compareOrdered left.order right.order operatorKind

/-- `_matches_value`: values of another kind never match. -/
def matchesValue (stored : PayloadValue) (condition : FilterCondition) : Bool :=
  match stored, condition.value with
  | .string left, .string right =>
      if condition.operatorKind = .equal then left = right else left ≠ right
  | .boolean left, .boolean right =>
      if condition.operatorKind = .equal then left = right else left ≠ right
  | .integer left, .integer right => compareInts left right condition.operatorKind
  | .floating left, .floating right => compareFloats left right condition.operatorKind
  | _, _ => false

/-- `_matches_condition`: the first field of that name decides. -/
def matchesCondition (fields : List DocumentField) (condition : FilterCondition) : Bool :=
  match fields.find? (·.name = condition.name) with
  | some field => matchesValue field.value condition
  | none => false

/-! ## Arenas -/

/-- What a node of an expression combines. -/
inductive NodeKind where
  | condition
  | all
  | any
  | negate
deriving DecidableEq, Repr

structure FilterNode where
  kind : NodeKind
  condition : Option FilterCondition
  children : List Nat
deriving DecidableEq

/-- `clone_with_offset`. -/
def FilterNode.cloneWithOffset (node : FilterNode) (offset : Nat) : FilterNode :=
  { node with children := node.children.map (· + offset) }

/-- A Boolean expression stored as a flat node arena. -/
structure FilterExpression where
  nodes : List FilterNode
  root : Nat
deriving DecidableEq

namespace FilterExpression

def maxDepth : Nat := 16

def maxNodes : Nat := 256

/-- The depths of the nodes, in order, after those already known. -/
def depthsFrom (depths : List Nat) : List FilterNode → List Nat
  | [] => depths
  | node :: nodes =>
      let maximumChildDepth := (node.children.map fun child => depths.getD child 0).foldl max 0
      depthsFrom (depths ++ [maximumChildDepth + 1]) nodes

def depth (expression : FilterExpression) : Nat :=
  (depthsFrom [] expression.nodes).getD expression.root 0

end FilterExpression

/-- The checks a node of an arena and a requested node share. -/
def validateShape (kind : NodeKind) (condition : Option FilterCondition) (childCount : Nat) :
    Except String Unit :=
  match kind, condition with
  | .condition, some condition => do
      require (childCount = 0) "condition expression has invalid shape"
      condition.validate
  | .condition, none => throw "condition expression has invalid shape"
  | _, some _ => throw "Boolean expression cannot contain a direct condition"
  | kind, none =>
      require (kind = .negate → childCount = 1) "negate expression requires exactly one child"

/-- `_validate_requested_shape`. -/
def validateRequestedShape (kind : NodeKind) (condition : Option FilterCondition)
    (children : List FilterExpression) : Except String Unit :=
  validateShape kind condition children.length

/-- `_validate_expression_node`: the shape, and children before their parent. -/
def validateExpressionNode (node : FilterNode) (nodeIndex : Nat) : Except String Unit := do
  validateShape node.kind node.condition node.children.length
  require (∀ child ∈ node.children, child < nodeIndex)
    "filter expression child ordering is invalid"

/-- Each node of the arena in order. -/
def validateNodesFrom : Nat → List FilterNode → Except String Unit
  | _, [] => .ok ()
  | nodeIndex, node :: nodes => do
      validateExpressionNode node nodeIndex
      validateNodesFrom (nodeIndex + 1) nodes

namespace FilterExpression

def validate (expression : FilterExpression) : Except String Unit := do
  require (expression.root < expression.nodes.length) "filter expression root is out of bounds"
  validateNodesFrom 0 expression.nodes
  require (expression.depth ≤ maxDepth) "filter expression exceeds maximum depth"
  require (expression.nodes.length ≤ maxNodes) "filter expression exceeds maximum node count"

/-- Copy the children's arenas one behind the other; each child's root moves with its arena. -/
def appendChildren (nodes : List FilterNode) (roots : List Nat) :
    List FilterExpression → List FilterNode × List Nat
  | [] => (nodes, roots)
  | child :: children =>
      let offset := nodes.length
      appendChildren (nodes ++ child.nodes.map (·.cloneWithOffset offset))
        (roots ++ [child.root + offset]) children

/-- The constructor: the children's arenas, then the new root. -/
def build (kind : NodeKind) (condition : Option FilterCondition)
    (children : List FilterExpression) : Except String FilterExpression := do
  validateRequestedShape kind condition children
  let (nodes, rootChildren) := appendChildren [] [] children
  let expression : FilterExpression :=
    { nodes := nodes ++ [⟨kind, condition, rootChildren⟩], root := nodes.length }
  expression.validate
  pure expression

def condition (condition : FilterCondition) : Except String FilterExpression :=
  build .condition (some condition) []

def all (children : List FilterExpression) : Except String FilterExpression :=
  build .all none children

def any (children : List FilterExpression) : Except String FilterExpression :=
  build .any none children

def negate (child : FilterExpression) : Except String FilterExpression :=
  build .negate none [child]

end FilterExpression

/-! ## Trees -/

/-- A filter as it is written. -/
inductive FilterTree where
  | condition (condition : FilterCondition)
  | all (children : List FilterTree)
  | any (children : List FilterTree)
  | negate (child : FilterTree)

namespace FilterTree

mutual
/-- The recursive meaning of a filter on the fields of one record. -/
def holds (fields : List DocumentField) : FilterTree → Bool
  | .condition c => matchesCondition fields c
  | .all children => holdsAll fields children
  | .any children => holdsAny fields children
  | .negate child => !holds fields child

/-- Every child holds. -/
def holdsAll (fields : List DocumentField) : List FilterTree → Bool
  | [] => true
  | child :: children => holds fields child && holdsAll fields children

/-- Some child holds. -/
def holdsAny (fields : List DocumentField) : List FilterTree → Bool
  | [] => false
  | child :: children => holds fields child || holdsAny fields children
end

mutual
/-- The constructor calls that build a filter. -/
def toExpression : FilterTree → Except String FilterExpression
  | .condition c => FilterExpression.condition c
  | .all children => do
      let children ← toExpressions children
      FilterExpression.all children
  | .any children => do
      let children ← toExpressions children
      FilterExpression.any children
  | .negate child => do
      let child ← toExpression child
      FilterExpression.negate child

/-- The children of a filter, from left to right. -/
def toExpressions : List FilterTree → Except String (List FilterExpression)
  | [] => pure []
  | child :: children => do
      let first ← toExpression child
      let rest ← toExpressions children
      pure (first :: rest)
end

end FilterTree

/-! ## The stack machine -/

/-- The variables of the loop of `matches_expression`; the stacks grow at the head. -/
structure MatchState where
  nodeStack : List Nat
  childPositions : List Nat
  hasResult : Bool
  result : Bool
deriving DecidableEq

/-- Pop the node and leave a result for its parent. -/
def MatchState.finish (state : MatchState) (result : Bool) : MatchState :=
  ⟨state.nodeStack.tail, state.childPositions.tail, true, result⟩

/-- A result has arrived at a node: the node is decided, or its next child is due. -/
def resumeNode (state : MatchState) (node : FilterNode) (position : Nat) : MatchState :=
  match node.kind, state.result with
  | .negate, result => state.finish (!result)
  | .all, false => state.finish false
  | .any, true => state.finish true
  | _, _ =>
      { state with
        childPositions := (position + 1) :: state.childPositions.tail
        hasResult := false }

/-- A node without a result yet: evaluate a condition, finish when no child is left, or push
the next child. -/
def enterNode (fields : List DocumentField) (state : MatchState) (node : FilterNode)
    (position : Nat) : MatchState :=
  match node.kind, node.condition with
  | .condition, some condition => state.finish (matchesCondition fields condition)
  | _, _ =>
      match node.children[position]? with
      | none => state.finish (node.kind = .all)
      | some child =>
          { state with
            nodeStack := child :: state.nodeStack
            childPositions := 0 :: state.childPositions }

/-- One round of the loop. -/
def matchStep (fields : List DocumentField) (expression : FilterExpression)
    (state : MatchState) : MatchState :=
  match state.nodeStack, state.childPositions with
  | nodeIndex :: _, position :: _ =>
      match expression.nodes[nodeIndex]? with
      | some node =>
          if state.hasResult then resumeNode state node position
          else enterNode fields state node position
      | none => state
  | _, _ => state

/-- `while len(node_stack) > 0`, for at most so many rounds. -/
def matchLoop (fields : List DocumentField) (expression : FilterExpression) :
    Nat → MatchState → Option Bool
  | 0, state => if state.nodeStack = [] then some state.result else none
  | rounds + 1, state =>
      if state.nodeStack = [] then some state.result
      else matchLoop fields expression rounds (matchStep fields expression state)

/-- `matches_expression`; no value when the rounds do not suffice. -/
def matchesExpression (rounds : Nat) (fields : List DocumentField)
    (expression : FilterExpression) : Except String (Option Bool) := do
  expression.validate
  pure (matchLoop fields expression rounds ⟨[expression.root], [0], false, false⟩)

/-! ## The meaning of an arena -/

/-- What a node makes of its condition or its children's values. -/
def combine (fields : List DocumentField) (kind : NodeKind) (condition : Option FilterCondition)
    (values : List Bool) : Bool :=
  match kind with
  | .condition => condition.any (matchesCondition fields)
  | .all => values.all id
  | .any => values.any id
  | .negate => !values.headD false

/-- The value of a node from the values of the nodes before it. -/
def nodeHolds (fields : List DocumentField) (values : List Bool) (node : FilterNode) : Bool :=
  combine fields node.kind node.condition (node.children.map fun child => values.getD child false)

/-- The values of the nodes, after those already known. -/
def arenaHoldsFrom (fields : List DocumentField) (values : List Bool) :
    List FilterNode → List Bool
  | [] => values
  | node :: nodes => arenaHoldsFrom fields (values ++ [nodeHolds fields values node]) nodes

/-- The values of the nodes of an arena. -/
def arenaHolds (fields : List DocumentField) (nodes : List FilterNode) : List Bool :=
  arenaHoldsFrom fields [] nodes

/-- The value of the root. -/
def FilterExpression.holds (expression : FilterExpression) (fields : List DocumentField) : Bool :=
  (arenaHolds fields expression.nodes).getD expression.root false

theorem validate_shape_ok {kind : NodeKind} {condition : Option FilterCondition}
    {childCount : Nat} (h : validateShape kind condition childCount = .ok ()) :
    (kind = .condition ∧ ∃ c, condition = some c) ∨
      (kind ≠ .condition ∧ condition = none ∧ (kind = .negate → childCount = 1)) := by
  cases condition with
  | none =>
      cases kind with
      | condition => exact absurd h (by simp [validateShape, throw, throwThe, MonadExceptOf.throw])
      | all => exact .inr ⟨by decide, rfl, require_ok.1 h⟩
      | any => exact .inr ⟨by decide, rfl, require_ok.1 h⟩
      | negate => exact .inr ⟨by decide, rfl, require_ok.1 h⟩
  | some c =>
      cases kind with
      | condition => exact .inl ⟨rfl, c, rfl⟩
      | all => exact absurd h (by simp [validateShape, throw, throwThe, MonadExceptOf.throw])
      | any => exact absurd h (by simp [validateShape, throw, throwThe, MonadExceptOf.throw])
      | negate => exact absurd h (by simp [validateShape, throw, throwThe, MonadExceptOf.throw])

/-- Shapes are right and children stand before their parents, in an arena behind `start`
nodes. -/
def ArenaValid (start : Nat) (nodes : List FilterNode) : Prop :=
  ∀ i node, nodes[i]? = some node →
    validateShape node.kind node.condition node.children.length = .ok () ∧
      ∀ child ∈ node.children, child < start + i

variable {nodes : List FilterNode}

theorem validate_nodes_from_ok {start : Nat} {u : Unit}
    (h : validateNodesFrom start nodes = .ok u) : ArenaValid start nodes := by
  induction nodes generalizing start with
  | nil =>
      intro i node hi
      exact absurd hi (by simp)
  | cons first nodes ih =>
      simp only [validateNodesFrom, validateExpressionNode, bind_ok, require_ok,
        exists_unit] at h
      obtain ⟨⟨hshape, hchildren⟩, hrest⟩ := h
      intro i node hi
      cases i with
      | zero =>
          obtain rfl : first = node := by simpa using hi
          exact ⟨hshape, hchildren⟩
      | succ i =>
          obtain ⟨hs, hc⟩ := ih hrest i node (by simpa using hi)
          exact ⟨hs, fun child hchild => by have := hc child hchild; omega⟩

theorem FilterExpression.validate_ok {expression : FilterExpression} {u : Unit}
    (h : expression.validate = .ok u) :
    expression.root < expression.nodes.length ∧ ArenaValid 0 expression.nodes := by
  simp only [validate, bind_ok, require_ok, exists_unit] at h
  exact ⟨h.1, validate_nodes_from_ok h.2.1⟩

section Meaning

variable {fields : List DocumentField}

theorem arena_holds_from_length (values : List Bool) (nodes : List FilterNode) :
    (arenaHoldsFrom fields values nodes).length = values.length + nodes.length := by
  induction nodes generalizing values with
  | nil => rfl
  | cons node nodes ih =>
      rw [arenaHoldsFrom, ih, length_append, length_singleton, length_cons]
      omega

variable (fields) in
theorem arena_holds_length (nodes : List FilterNode) :
    (arenaHolds fields nodes).length = nodes.length := by
  rw [arenaHolds, arena_holds_from_length, length_nil, Nat.zero_add]

theorem arena_holds_from_get_d {values : List Bool} (nodes : List FilterNode) {i : Nat}
    (hi : i < values.length) :
    (arenaHoldsFrom fields values nodes).getD i false = values.getD i false := by
  induction nodes generalizing values with
  | nil => rfl
  | cons node nodes ih =>
      rw [arenaHoldsFrom, ih (by rw [length_append]; omega), getD_append _ _ _ _ hi]

variable {node : FilterNode}

theorem node_holds_congr {values values' : List Bool}
    (h : ∀ child ∈ node.children, values.getD child false = values'.getD child false) :
    nodeHolds fields values node = nodeHolds fields values' node := by
  unfold nodeHolds
  rw [map_congr_left h]

variable (fields) in
/-- Every node has the value that its children give it. -/
theorem arena_holds_from_node (values : List Bool) (hvalid : ArenaValid values.length nodes)
    {i : Nat} (hnode : nodes[i]? = some node) :
    (arenaHoldsFrom fields values nodes).getD (values.length + i) false =
      nodeHolds fields (arenaHoldsFrom fields values nodes) node := by
  induction nodes generalizing values i with
  | nil => exact absurd hnode (by simp)
  | cons first nodes ih =>
      rw [arenaHoldsFrom]
      cases i with
      | zero =>
          obtain rfl : first = node := by simpa using hnode
          obtain ⟨-, hchildren⟩ := hvalid 0 first (by simp)
          rw [Nat.add_zero, arena_holds_from_get_d _ (by simp), getD_append_right _ _ _ _
            (Nat.le_refl _), Nat.sub_self, getD_cons_zero]
          refine node_holds_congr fun child hchild => ?_
          have hlt : child < values.length := hchildren child hchild
          rw [arena_holds_from_get_d _ (by rw [length_append]; omega),
            getD_append _ _ _ _ hlt]
      | succ i =>
          have hlen : (values ++ [nodeHolds fields values first]).length = values.length + 1 := by
            simp
          have := ih (values ++ [nodeHolds fields values first])
            (fun j n hj => by
              have := hvalid (j + 1) n (by simpa using hj)
              rw [hlen]
              exact ⟨this.1, fun child hchild => by have := this.2 child hchild; omega⟩)
            (show nodes[i]? = some node by simpa using hnode)
          rw [hlen] at this
          rw [← this]
          congr 1
          omega

theorem arena_holds_node (hvalid : ArenaValid 0 nodes) {i : Nat} (hnode : nodes[i]? = some node) :
    (arenaHolds fields nodes).getD i false = nodeHolds fields (arenaHolds fields nodes) node := by
  have := arena_holds_from_node fields [] hvalid hnode
  rwa [length_nil, Nat.zero_add] at this

/-! ## Building keeps the meaning -/

theorem node_holds_clone (before values : List Bool) (node : FilterNode) :
    nodeHolds fields (before ++ values) (node.cloneWithOffset before.length) =
      nodeHolds fields values node := by
  unfold nodeHolds FilterNode.cloneWithOffset
  simp only [map_map]
  congr 1
  refine map_congr_left fun child _ => ?_
  show (before ++ values).getD (child + before.length) false = _
  rw [getD_append_right _ _ _ _ (by omega), Nat.add_sub_cancel]

variable (fields) in
theorem arena_holds_from_clone (before values : List Bool) (nodes : List FilterNode) :
    arenaHoldsFrom fields (before ++ values)
        (nodes.map (·.cloneWithOffset before.length)) =
      before ++ arenaHoldsFrom fields values nodes := by
  induction nodes generalizing values with
  | nil => rfl
  | cons node nodes ih =>
      rw [map_cons, arenaHoldsFrom, arenaHoldsFrom, node_holds_clone, append_assoc, ih]

theorem arena_holds_from_append (values : List Bool) (nodes others : List FilterNode) :
    arenaHoldsFrom fields values (nodes ++ others) =
      arenaHoldsFrom fields (arenaHoldsFrom fields values nodes) others := by
  induction nodes generalizing values with
  | nil => rfl
  | cons node nodes ih => rw [cons_append, arenaHoldsFrom, arenaHoldsFrom, ih]

theorem arena_holds_append_clone (nodes others : List FilterNode) :
    arenaHolds fields (nodes ++ others.map (·.cloneWithOffset nodes.length)) =
      arenaHolds fields nodes ++ arenaHolds fields others := by
  have hlen := arena_holds_length fields nodes
  have hclone := arena_holds_from_clone fields (arenaHolds fields nodes) [] others
  rw [append_nil, hlen] at hclone
  rw [arenaHolds, arena_holds_from_append]
  exact hclone

variable (fields) in
/-- The roots of the copied children have the children's values. -/
theorem append_children_holds {children : List FilterExpression} (nodes : List FilterNode)
    (roots : List Nat) (hroots : ∀ root ∈ roots, root < nodes.length)
    (hchildren : ∀ child ∈ children, child.root < child.nodes.length) :
    ((FilterExpression.appendChildren nodes roots children).2.map fun root =>
        (arenaHolds fields (FilterExpression.appendChildren nodes roots children).1).getD root
          false) =
      (roots.map fun root => (arenaHolds fields nodes).getD root false) ++
        children.map (·.holds fields) := by
  induction children generalizing nodes roots with
  | nil => simp [FilterExpression.appendChildren]
  | cons child children ih =>
      have hroot := hchildren child mem_cons_self
      have hlen := arena_holds_length fields nodes
      rw [FilterExpression.appendChildren, ih]
      case hchildren => exact fun c hc => hchildren c (mem_cons_of_mem _ hc)
      case hroots =>
        intro root hmem
        rw [length_append, length_map]
        rcases mem_append.1 hmem with hmem | hmem
        · have := hroots root hmem
          omega
        · rw [mem_singleton.1 hmem]
          omega
      rw [arena_holds_append_clone, map_append, map_cons, append_assoc]
      congr 1
      · refine map_congr_left fun root hmem => ?_
        exact getD_append _ _ _ _ (by rw [hlen]; exact hroots root hmem)
      · rw [getD_append_right _ _ _ _ (by omega), hlen, Nat.add_sub_cancel]
        rfl

variable (fields) in
theorem build_holds {kind : NodeKind} {condition : Option FilterCondition}
    {children : List FilterExpression} {expression : FilterExpression}
    (h : FilterExpression.build kind condition children = .ok expression)
    (hchildren : ∀ child ∈ children, child.validate = .ok ()) :
    expression.validate = .ok () ∧
      expression.holds fields = combine fields kind condition (children.map (·.holds fields)) := by
  simp only [FilterExpression.build, bind_ok, exists_unit, pure_ok] at h
  obtain ⟨-, hvalid, rfl⟩ := h
  refine ⟨hvalid, ?_⟩
  have hroots := append_children_holds fields [] [] (by simp)
    fun child hchild => (FilterExpression.validate_ok (hchildren child hchild)).1
  simp only [map_nil, nil_append] at hroots
  -- The root is the last node, so its value is computed from all the others.
  rw [FilterExpression.holds, arenaHolds, arena_holds_from_append, arenaHoldsFrom, arenaHoldsFrom,
    getD_append_right _ _ _ _ (by rw [arena_holds_from_length]; simp),
    arena_holds_from_length, length_nil, Nat.zero_add, Nat.sub_self, getD_cons_zero,
    nodeHolds, ← hroots]
  rfl

variable (fields) in
mutual
/-- The arena built from a tree is valid and means what the tree means. -/
theorem to_expression_holds {tree : FilterTree} {expression : FilterExpression}
    (h : tree.toExpression = .ok expression) :
    expression.validate = .ok () ∧ expression.holds fields = tree.holds fields := by
  cases tree with
  | condition c =>
      obtain ⟨hvalid, hholds⟩ := build_holds fields h (by simp)
      exact ⟨hvalid, hholds⟩
  | all children =>
      simp only [FilterTree.toExpression, bind_ok] at h
      obtain ⟨expressions, hexpressions, h⟩ := h
      obtain ⟨hchildren, hall, -⟩ := to_expressions_holds hexpressions
      obtain ⟨hvalid, hholds⟩ := build_holds fields h hchildren
      exact ⟨hvalid, hholds.trans hall⟩
  | any children =>
      simp only [FilterTree.toExpression, bind_ok] at h
      obtain ⟨expressions, hexpressions, h⟩ := h
      obtain ⟨hchildren, -, hany⟩ := to_expressions_holds hexpressions
      obtain ⟨hvalid, hholds⟩ := build_holds fields h hchildren
      exact ⟨hvalid, hholds.trans hany⟩
  | negate child =>
      simp only [FilterTree.toExpression, bind_ok] at h
      obtain ⟨inner, hinner, h⟩ := h
      obtain ⟨hchild, hchildHolds⟩ := to_expression_holds hinner
      obtain ⟨hvalid, hholds⟩ := build_holds fields h
        (fun c hc => by rw [mem_singleton.1 hc]; exact hchild)
      refine ⟨hvalid, hholds.trans ?_⟩
      show (!inner.holds fields) = !child.holds fields
      rw [hchildHolds]

theorem to_expressions_holds {trees : List FilterTree} {expressions : List FilterExpression}
    (h : FilterTree.toExpressions trees = .ok expressions) :
    (∀ expression ∈ expressions, expression.validate = .ok ()) ∧
      (expressions.map (·.holds fields)).all id = FilterTree.holdsAll fields trees ∧
      (expressions.map (·.holds fields)).any id = FilterTree.holdsAny fields trees := by
  cases trees with
  | nil =>
      obtain rfl := pure_ok.1 h
      exact ⟨fun e he => absurd he not_mem_nil, rfl, rfl⟩
  | cons tree trees =>
      simp only [FilterTree.toExpressions, bind_ok, pure_ok] at h
      obtain ⟨first, hfirst, rest, hrest, rfl⟩ := h
      obtain ⟨hvalid, hholds⟩ := to_expression_holds hfirst
      obtain ⟨hvalids, hall, hany⟩ := to_expressions_holds hrest
      refine ⟨fun e he => ?_, ?_, ?_⟩
      · rcases mem_cons.1 he with rfl | he
        · exact hvalid
        · exact hvalids e he
      · rw [map_cons, all_cons, hall, id_eq, hholds]
        rfl
      · rw [map_cons, any_cons, hany, id_eq, hholds]
        rfl
end

/-! ## The machine computes the meaning -/

variable {expression : FilterExpression}

/-- Some number of rounds leads from one state to the other. -/
def Reaches (fields : List DocumentField) (expression : FilterExpression)
    (state state' : MatchState) : Prop :=
  ∃ rounds, (matchStep fields expression)^[rounds] state = state'

theorem Reaches.trans {s₁ s₂ s₃ : MatchState} (h₁ : Reaches fields expression s₁ s₂)
    (h₂ : Reaches fields expression s₂ s₃) : Reaches fields expression s₁ s₃ := by
  obtain ⟨n, rfl⟩ := h₁
  obtain ⟨m, rfl⟩ := h₂
  exact ⟨m + n, Function.iterate_add_apply _ m n _⟩

theorem Reaches.step {s s' : MatchState} (h : matchStep fields expression s = s') :
    Reaches fields expression s s' :=
  ⟨1, h⟩

theorem match_step_enter {nodeIndex position : Nat} {stack positions : List Nat} {result : Bool}
    (hnode : expression.nodes[nodeIndex]? = some node) :
    matchStep fields expression ⟨nodeIndex :: stack, position :: positions, false, result⟩ =
      enterNode fields ⟨nodeIndex :: stack, position :: positions, false, result⟩ node position := by
  simp only [matchStep, hnode]
  rfl

theorem match_step_resume {nodeIndex position : Nat} {node : FilterNode}
    {stack positions : List Nat} {result : Bool}
    (hnode : expression.nodes[nodeIndex]? = some node) :
    matchStep fields expression ⟨nodeIndex :: stack, position :: positions, true, result⟩ =
      resumeNode ⟨nodeIndex :: stack, position :: positions, true, result⟩ node position := by
  simp only [matchStep, hnode]
  rfl

/-- From its child at `position` on, an `all` or `any` node is decided by the children that are
left. -/
theorem children_reach {nodeIndex : Nat} {value : Nat → Bool}
    (hnode : expression.nodes[nodeIndex]? = some node)
    (hkind : node.kind = .all ∨ node.kind = .any)
    (hchild : ∀ child ∈ node.children, ∀ stack positions result, Reaches fields expression
      ⟨child :: stack, 0 :: positions, false, result⟩ ⟨stack, positions, true, value child⟩)
    (stack positions : List Nat) (rest : List Nat) (position : Nat) (result : Bool)
    (hrest : node.children.drop position = rest) :
    Reaches fields expression ⟨nodeIndex :: stack, position :: positions, false, result⟩
      ⟨stack, positions, true, combine fields node.kind none (rest.map value)⟩ := by
  induction rest generalizing position result with
  | nil =>
      have hnone : node.children[position]? = none :=
        getElem?_eq_none (drop_eq_nil_iff.1 hrest)
      refine Reaches.step (match_step_enter hnode |>.trans ?_)
      unfold enterNode
      rcases hkind with h | h <;> simp [h, hnone, MatchState.finish, combine]
  | cons child rest ih =>
      have hsome : node.children[position]? = some child := by
        have : (node.children.drop position)[0]? = some child := by rw [hrest]; rfl
        rwa [getElem?_drop, Nat.add_zero] at this
      have hnext : node.children.drop (position + 1) = rest := by
        rw [← drop_drop, hrest, drop_one, tail_cons]
      have hpush : Reaches fields expression
          ⟨nodeIndex :: stack, position :: positions, false, result⟩
          ⟨child :: nodeIndex :: stack, 0 :: position :: positions, false, result⟩ := by
        refine Reaches.step (match_step_enter hnode |>.trans ?_)
        unfold enterNode
        rcases hkind with h | h <;> simp [h, hsome]
      have hvalue := hchild child (mem_of_getElem? hsome) (nodeIndex :: stack)
        (position :: positions) result
      refine hpush.trans (hvalue.trans ?_)
      -- The child's value decides the node, or the next child is due.
      have hresume := @match_step_resume fields expression nodeIndex position node stack positions
        (value child) hnode
      rcases hkind with h | h
      · cases hv : value child with
        | false =>
            rw [hv] at hresume
            refine Reaches.step (hresume.trans ?_)
            simp [resumeNode, h, MatchState.finish, combine, hv]
        | true =>
            rw [hv] at hresume
            have := (Reaches.step hresume).trans
              (by simpa only [resumeNode, h, tail_cons] using ih (position + 1) true hnext)
            simpa [combine, h, hv] using this
      · cases hv : value child with
        | true =>
            rw [hv] at hresume
            refine Reaches.step (hresume.trans ?_)
            simp [resumeNode, h, MatchState.finish, combine, hv]
        | false =>
            rw [hv] at hresume
            have := (Reaches.step hresume).trans
              (by simpa only [resumeNode, h, tail_cons] using ih (position + 1) false hnext)
            simpa [combine, h, hv] using this

variable (fields) in
/-- A node on top of the stack is replaced by its value. -/
theorem node_reaches (hvalid : ArenaValid 0 expression.nodes) (nodeIndex : Nat)
    (hindex : nodeIndex < expression.nodes.length) (stack positions : List Nat) (result : Bool) :
    Reaches fields expression ⟨nodeIndex :: stack, 0 :: positions, false, result⟩
      ⟨stack, positions, true, (arenaHolds fields expression.nodes).getD nodeIndex false⟩ := by
  induction nodeIndex using Nat.strong_induction_on generalizing stack positions result with
  | _ nodeIndex ih =>
      have hnode := getElem?_eq_getElem hindex
      generalize expression.nodes[nodeIndex] = node at hnode
      obtain ⟨hshape, hchildren⟩ := hvalid nodeIndex node hnode
      rw [Nat.zero_add] at hchildren
      have hchild : ∀ child ∈ node.children, ∀ stack positions result, Reaches fields expression
          ⟨child :: stack, 0 :: positions, false, result⟩
          ⟨stack, positions, true, (arenaHolds fields expression.nodes).getD child false⟩ :=
        fun child hmem => ih child (hchildren child hmem)
          (Nat.lt_trans (hchildren child hmem) hindex)
      rw [arena_holds_node hvalid hnode, nodeHolds]
      rcases validate_shape_ok hshape with ⟨hkind, condition, hcond⟩ | ⟨hkind, hcond, hone⟩
      · refine Reaches.step (match_step_enter hnode |>.trans ?_)
        simp [enterNode, hkind, hcond, MatchState.finish, combine]
      · rw [hcond]
        cases hk : node.kind with
        | condition => exact absurd hk hkind
        | all =>
            have := children_reach hnode (.inl hk) hchild stack positions node.children 0 result
              rfl
            rwa [hk] at this
        | any =>
            have := children_reach hnode (.inr hk) hchild stack positions node.children 0 result
              rfl
            rwa [hk] at this
        | negate =>
            obtain ⟨child, hone⟩ := length_eq_one_iff.1 (hone hk)
            have hpush : Reaches fields expression
                ⟨nodeIndex :: stack, 0 :: positions, false, result⟩
                ⟨child :: nodeIndex :: stack, 0 :: 0 :: positions, false, result⟩ := by
              refine Reaches.step (match_step_enter hnode |>.trans ?_)
              simp [enterNode, hk, hone]
            refine hpush.trans ((hchild child (by rw [hone]; exact mem_singleton_self _)
              (nodeIndex :: stack) (0 :: positions) result).trans ?_)
            refine Reaches.step (match_step_resume hnode |>.trans ?_)
            simp [resumeNode, hk, MatchState.finish, combine, hone]

theorem match_loop_eq (rounds : Nat) (state : MatchState) :
    matchLoop fields expression rounds state =
      if ((matchStep fields expression)^[rounds] state).nodeStack = [] then
        some ((matchStep fields expression)^[rounds] state).result
      else none := by
  induction rounds generalizing state with
  | zero => rfl
  | succ rounds ih =>
      rw [matchLoop, Function.iterate_succ_apply]
      split
      · rename_i hempty
        -- An empty stack stays as it is.
        have hfix : matchStep fields expression state = state := by
          unfold matchStep
          rw [hempty]
        rw [hfix, Function.iterate_fixed hfix, if_pos hempty]
      · exact ih _

variable (fields) in
theorem matches_expression_ok (hvalid : expression.validate = .ok ()) :
    ∃ enough, ∀ rounds, enough ≤ rounds →
      matchesExpression rounds fields expression = .ok (some (expression.holds fields)) := by
  obtain ⟨hroot, harena⟩ := FilterExpression.validate_ok hvalid
  obtain ⟨enough, henough⟩ := node_reaches fields harena expression.root hroot [] []
    false
  refine ⟨enough, fun rounds hrounds => ?_⟩
  have hfix : ∀ result, matchStep fields expression ⟨[], [], true, result⟩ =
      ⟨[], [], true, result⟩ := fun _ => rfl
  have hend : (matchStep fields expression)^[rounds] ⟨[expression.root], [0], false, false⟩ =
      ⟨[], [], true, expression.holds fields⟩ := by
    rw [← Nat.sub_add_cancel hrounds, Function.iterate_add_apply, henough,
      Function.iterate_fixed (hfix _)]
    rfl
  simp only [matchesExpression, hvalid, match_loop_eq, hend, if_true]
  rfl

end Meaning

end Query

end Akasha

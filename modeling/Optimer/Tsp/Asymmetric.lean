import Mathlib.Data.List.Dedup
import Optimer.Tsp.ApSolver
import Optimer.Tsp.Tour

/-! `TspSolver`, the branch-and-bound solver for the asymmetric problem: the nodes of its search tree,
the assignment problem of a node, the five branching rules and `branch`. `none` is a run that ends in
a failed `CHECK`, reads outside a vector or does not end within `fuel` rounds of some loop. -/

namespace Optimer.Tsp

/-- `TspSolver::Set`; `level` is only written to the log. -/
structure TspSet where
  value : ValueType := 0
  includedEdges : List Edge := []
  excludedEdges : List Edge := []
  apSolution : ApSolver.Solution := ⟨fun _ => 0, fun _ => 0, fun _ => 0⟩

/-- `bnb::Node<TspSolver::Set>`. -/
inductive Node
  | root (data : TspSet)
  | child (parent : Node) (data : TspSet)

namespace Node

def data : Node → TspSet
  | root data => data
  | child _ data => data

def parent? : Node → Option Node
  | root _ => none
  | child parent _ => some parent

/-- The included edges from the node up to the root, which has none. -/
def includedPoints : Node → List Edge
  | root _ => []
  | child parent data => data.includedEdges ++ parent.includedPoints

def excludedPoints : Node → List Edge
  | root _ => []
  | child parent data => data.excludedEdges ++ parent.excludedPoints

/-- The node with the results of `transform_node` filled in. -/
def solved (node : Node) (value : ValueType) (apSolution : ApSolver.Solution) : Node :=
  match node with
  | root data => root { data with value, apSolution }
  | child parent data => child parent { data with value, apSolution }

/-- `fill_edges_map`. -/
def edgeMap (node : Node) (e : Edge) : Bool :=
  decide (e ∈ node.includedPoints) || decide (e ∈ node.excludedPoints)

end Node

/-! ### Paths of an assignment -/

/-- The values of `finish` in the loops `while (start != finish && length < dimension)`, from its
first one on. -/
def cyclePath (p : ℕ → ℕ) (start : ℕ) : ℕ → ℕ → List ℕ
  | 0, finish => [finish]
  | k + 1, finish => if start = finish then [finish] else finish :: cyclePath p start k (p finish)

def pathFrom (p : ℕ → ℕ) (n start : ℕ) : List ℕ := cyclePath p start (n - 1) (p start)

/-- `has_solution`. -/
def hasSolution (p : ℕ → ℕ) (n : ℕ) : Bool :=
  (pathFrom p n 0).getLast? = some 0 ∧ (pathFrom p n 0).length = n

/-- `TspSolver::create_tour`. -/
def createTour (p : ℕ → ℕ) (n : ℕ) : List ℕ :=
  if (pathFrom p n 0).length = n then 0 :: pathFrom p n 0 else []

/-- The variables of `mincard_subtour`. -/
structure Mincard where
  selectedVertices : ℕ → Bool
  selectedPathStart : ℕ
  selectedPathLength : ℕ

/-- The vertices selected after a path that starts at `start`. -/
def Mincard.select (s : Mincard) (start : ℕ) (path : List ℕ) (v : ℕ) : Bool :=
  s.selectedVertices v || decide (v = start) || decide (v ∈ path)

/-- The body of the loop of `mincard_subtour`. -/
def mincardBody (p : ℕ → ℕ) (n : ℕ) (s : Mincard) : Option (Mincard ⊕ Mincard) :=
  if s.selectedPathLength = 2 then some (.inr s)
  else
    match (List.range n).find? fun v => !s.selectedVertices v with
    | none => some (.inr s)
    | some start =>
      let path := pathFrom p n start
      let selectedVertices := s.select start path
      if path.getLast? = some start ∧ 1 < path.length ∧ path.length < s.selectedPathLength then
        some (.inl { selectedVertices, selectedPathStart := start, selectedPathLength := path.length })
      else some (.inl { s with selectedVertices })

/-- `TspSolver::mincard_subtour`; `selected_path_length` starts from `M_VAL` as a `size_t`. -/
def mincardSubtour (fuel : ℕ) (p : ℕ → ℕ) (n : ℕ) : Option (List ℕ) := do
  let s ← Loop.iterate (mincardBody p n) fuel
    { selectedVertices := fun _ => false
      selectedPathStart := n
      selectedPathLength := 10000000272564224 }
  return if s.selectedPathStart < n then s.selectedPathStart :: pathFrom p n s.selectedPathStart else []

/-! ### The assignment problem of a node -/

/-- The rows, or columns, that no included edge uses. -/
def kept (n : ℕ) (used : List ℕ) : List ℕ := (List.range n).filter fun k => decide (k ∉ used)

/-- `i_original_to_new` and `j_original_to_new`. -/
def originalToNew (n : ℕ) (used : List ℕ) (k : ℕ) : ℕ :=
  if k ∈ used then n else (kept n used).idxOf k

/-- `j_new_to_original`, and the same for the rows. -/
def newToOriginal (n : ℕ) (used : List ℕ) (k : ℕ) : ℕ := (kept n used).getD k 0

section TransformNode

variable (data : InitialData) (node : Node)

def usedRows : List ℕ := node.includedPoints.map Prod.fst

def usedCols : List ℕ := node.includedPoints.map Prod.snd

/-- `dimension_new`. -/
def dimensionNew : ℕ := data.rank - node.includedPoints.length

/-- `matrix_`: the kept rows and columns, with `M_VAL` for the excluded edges. -/
def matrixNew (i j : ℕ) : ValueType :=
  let e : Edge := (newToOriginal data.rank (usedRows node) i, newToOriginal data.rank (usedCols node) j)
  if e ∈ node.excludedPoints then mVal else data.matrix e.1 e.2

/-- The assignment of the parent, without the edges the node excludes; a failed `CHECK` is `none`. -/
def inheritedPrimal (parent : ApSolver.Solution) : Option (ℕ → ℕ) :=
  let iNew := originalToNew data.rank (usedRows node)
  let jNew := originalToNew data.rank (usedCols node)
  node.data.excludedEdges.foldlM (fun primal e =>
      if iNew e.1 < dimensionNew data node ∧ jNew e.2 < dimensionNew data node then
        some (Function.update primal (iNew e.1) (dimensionNew data node))
      else none)
    fun i => jNew (parent.primal (newToOriginal data.rank (usedRows node) i))

/-- The solution `ap_solver_` starts from; that of the root is empty. -/
def apStart : Option (Option ApSolver.Solution) :=
  match node.parent? with
  | none => some none
  | some parent => do
    let tmp := parent.data.apSolution
    let primal ← inheritedPrimal data node tmp
    return some
      { dualU := fun i => tmp.dualU (newToOriginal data.rank (usedRows node) i)
        dualV := fun j => tmp.dualV (newToOriginal data.rank (usedCols node) j)
        primal }

/-- The solution of the reduced problem as one of the whole problem. -/
def apOriginal (sol : ApSolver.Solution) : ApSolver.Solution where
  dualU i := if i ∈ usedRows node then 0 else sol.dualU (originalToNew data.rank (usedRows node) i)
  dualV j := if j ∈ usedCols node then 0 else sol.dualV (originalToNew data.rank (usedCols node) j)
  primal := node.includedPoints.foldl (fun p e => Function.update p e.1 e.2) fun i =>
    if i ∈ usedRows node then 0
    else newToOriginal data.rank (usedCols node)
      (sol.primal (originalToNew data.rank (usedRows node) i))

/-- `TspSolver::transform_node`; the value is taken from the original costs. -/
def transformNode (fuel : ℕ) : Option Node := do
  let start ← apStart data node
  let sol ← ApSolver.solve fuel (dimensionNew data node) (matrixNew data node) start
  let apSolution := apOriginal data node sol
  return node.solved (cost data.rank data.matrix apSolution.primal) apSolution

end TransformNode

/-! ### The branching rules -/

inductive BranchingRule
  | rule1
  | rule2
  | rule3
  | rule4
  | rule5
  deriving DecidableEq

/-- The rule that `TspSolver::init` sets. -/
def InitialData.rule (data : InitialData) : BranchingRule :=
  match data.branchingRule with
  | some 1 => .rule1
  | some 2 => .rule2
  | some 3 => .rule3
  | some 4 => .rule4
  | some 5 => .rule5
  | _ => .rule3

section Rules

variable (fuel : ℕ) (data : InitialData) (node : Node)

/-- A new node before `transform_node`. -/
def newNode (included excluded : List Edge) : Node :=
  .child node { includedEdges := included, excludedEdges := excluded }

/-- `MinValues`: the least value, where it was found, and the one after it. -/
structure MinValues where
  first : ValueType := mVal
  second : ℕ := 0
  third : ValueType := 0

/-- The entry that `branching_rule1` minimises over. -/
def ruleVal (i j : ℕ) : ValueType :=
  data.matrix i j - node.data.apSolution.dualU i - node.data.apSolution.dualV j

/-- The body of the loop over `j` for row `i`, on `col_min_values[i]` and `row_min_values[i]`: both are
indexed by `i`, and the last comparison is with the column values. -/
def minStep (i : ℕ) (s : MinValues × MinValues) (j : ℕ) : MinValues × MinValues :=
  let (col, row) := s
  let val := ruleVal data node i j
  let col' : MinValues :=
    if val ≤ col.first then { first := val, second := j, third := col.first }
    else if val ≤ col.third then { col with third := val } else col
  let row' : MinValues :=
    if val ≤ row.first then { first := val, second := i, third := row.first }
    else if val ≤ col'.third then { row with third := val } else row
  (col', row')

def minValues (i : ℕ) : MinValues × MinValues :=
  (List.range data.rank).foldl (minStep data node i) ({}, {})

/-- `p_value` of an edge. -/
def pValue (i j : ℕ) : ValueType :=
  let colMin k := (minValues data node k).1
  let rowMin k := (minValues data node k).2
  (if (colMin i).second ≠ j then (colMin j).first else (colMin j).third) +
    (if (rowMin j).second ≠ i then (rowMin j).first else (rowMin j).third)

/-- `edge_map_` of `branching_rule1`: it also marks the row and the column of an included edge. -/
def closedMap (e : Edge) : Bool :=
  node.includedPoints.any (fun f => f.1 = e.1 || f.2 = e.2) || decide (e ∈ node.excludedPoints)

/-- The body of the second loop, on `min_p_value` and the edge found so far. -/
def edgeStep (best : ValueType × Option Edge) (e : Edge) : ValueType × Option Edge :=
  if closedMap node e = false ∧ pValue data node e.1 e.2 < best.1 then
    (pValue data node e.1 e.2, some e)
  else best

/-- The first unmarked edge with the least `p_value` below `M_VAL`. -/
def minEdge : Option Edge :=
  let edges := (List.range data.rank).flatMap fun i => (List.range data.rank).map fun j => (i, j)
  (edges.foldl (edgeStep data node) (mVal, none)).2

def branchingRule1 : Option (List Node) :=
  match minEdge data node with
  | none => some []
  | some e => some [newNode node [] [e], newNode node [e] []]

/-- `TspSolver::select_move`. -/
def selectMove : Option (List Edge) := do
  let subtour ← mincardSubtour fuel node.data.apSolution.primal data.rank
  return (subtour.zip subtour.tail).filter fun e => !node.edgeMap e

def branchingRule2 : Option (List Node) := do
  let edges ← selectMove fuel data node
  return edges.map fun e => newNode node [] [e]

/-- The children of `branching_rule3`, with the edges included so far. -/
def rule3Nodes : List Edge → List Edge → List Node
  | _, [] => []
  | included, e :: edges => newNode node included [e] :: rule3Nodes (included ++ [e]) edges

def branchingRule3 : Option (List Node) := do
  let edges ← selectMove fuel data node
  return rule3Nodes node [] edges

/-- The vertices of the subtour; `subtour.size() - 1` of an empty one is out of range. -/
def subtourVertices : Option (List ℕ) := do
  let subtour ← mincardSubtour fuel node.data.apSolution.primal data.rank
  if subtour = [] then none else some subtour.dropLast

def branchingRule4 : Option (List Node) := do
  let vertices ← subtourVertices fuel data node
  vertices.mapM fun i =>
    let excluded := ((vertices.filter fun j => i ≠ j).map fun j => (i, j)).filter
      fun e => !node.edgeMap e
    if excluded = [] then none else some (newNode node [] excluded)

/-- The edges excluded by the child of `branching_rule5` for vertex `i`, where the vertices `before`
come earlier in the subtour. -/
def rule5Edges (vertices before : List ℕ) (i : ℕ) : List Edge :=
  ((List.range data.rank).flatMap fun j =>
    if j ∈ vertices then if i ≠ j then [(i, j)] else []
    else (before.filter fun l => l ≠ j).map fun l => (l, j)).filter fun e => !node.edgeMap e

/-- The new nodes, and those released again as they exclude nothing. -/
def branchingRule5 : Option (List Node × List Node) := do
  let vertices ← subtourVertices fuel data node
  let nodes := (List.range vertices.length).map fun k =>
    newNode node [] (rule5Edges data node vertices (vertices.take k) (vertices.getD k 0))
  return nodes.partition fun child => decide (child.data.excludedEdges ≠ [])

/-- The nodes a rule returns and those it released. -/
def BranchingRule.nodes (rule : BranchingRule) : Option (List Node × List Node) :=
  match rule with
  | rule1 => (branchingRule1 data node).map (·, [])
  | rule2 => (branchingRule2 fuel data node).map (·, [])
  | rule3 => (branchingRule3 fuel data node).map (·, [])
  | rule4 => (branchingRule4 fuel data node).map (·, [])
  | rule5 => branchingRule5 fuel data node

end Rules

/-! ### Branching -/

section Branch

variable (fuel : ℕ) (data : InitialData)

/-- The body of the loop of `branch` over the new nodes; `check_route` stops at an empty route. -/
def branchChild (b : Branched Node) (new : Node) : Option (Branched Node) := do
  let child ← transformNode data new fuel
  if hasSolution child.data.apSolution.primal data.rank then
    if child.data.value < b.record then
      let route := createTour child.data.apSolution.primal data.rank
      if route = [] then none
      else
        return { b with
          record := child.data.value
          sol := { value := child.data.value, route }
          released := b.released ++ [child] }
    else return { b with released := b.released ++ [child] }
  else if child.data.value < b.record then return { b with nodes := b.nodes ++ [child] }
  else return { b with released := b.released ++ [child] }

/-- `TspSolver::branch`. -/
def branch (rule : BranchingRule) (node : Node) (record : ValueType) (sol : Solution) :
    Option (Branched Node) :=
  if node.data.value ≥ record then some { record, sol, nodes := [], released := [] }
  else do
    let (nodes, released) ← rule.nodes fuel data node
    nodes.foldlM (branchChild fuel data) { record, sol, nodes := [], released }

/-- `TspSolver` after `init`, with the root and the initial solution it gives out. A call of `branch`
that does not return is modelled as one that hands its node back: the search does not end then. -/
def tspSolver (rule : BranchingRule) : Option (Solver Node) := do
  let initialSolution ← getGreedySolution fuel data.matrix data.rank
  let initialNode ← transformNode data (.root {}) fuel
  return {
    rank := data.rank
    initialNode
    initialSolution
    branch := fun node record sol => (branch fuel data rule node record sol).getD
      { record, sol, nodes := [node], released := [] }
    less := fun m n => m.data.value > n.data.value
    less_irrefl := fun _ => lt_irrefl _
    less_trans := fun h h' => lt_trans h' h }

end Branch

end Optimer.Tsp

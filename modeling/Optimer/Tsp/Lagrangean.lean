import Optimer.Tsp.Symmetric

/-! `LagrangeanRelaxation` and `LagrangeanSolver`, which bound the tours of a node by 1-trees of a
matrix with multipliers. `oneTree` stands for `MSOneTree::solve`; `none` is a run that ends in a failed
`CHECK`, reads outside a vector or uses a value that is not set. -/

namespace Optimer.Stsp
open Optimer.Tsp

/-- The parameters of `InitialData` that `LagrangeanSolver::init` reads. -/
structure Parameters where
  epsilon : ValueType := 0
  gradientMaxIters : ℕ := 100
  branchingRule : Option ℕ := none

variable (oneTree : (ℕ → ℕ → ValueType) → ℕ → MSOneTree.Solution ValueType)

namespace LagrangeanRelaxation

/-- The local variables of `solve`. -/
structure State where
  iter : ℕ
  matrix : ℕ → ℕ → ValueType
  lambda : ℕ → ValueType
  alpha : ValueType
  includedEdgesPenalty : ValueType
  solution : Option (MSOneTree.Solution ValueType)

def tourDegree : ℕ := 2

def alphaStartValue : ValueType := 2

/-- The matrix with the multipliers of both ends added to every edge. -/
def multiplied (initialMatrix : ℕ → ℕ → ValueType) (lambda : ℕ → ValueType) (i j : ℕ) : ValueType :=
  if i = j then mVal else initialMatrix i j + (lambda i + lambda j)

/-- The body of the loop over the included edges, on the penalty and the matrix. -/
def includeEdge (s : ValueType × (ℕ → ℕ → ValueType)) (e : Edge) : ValueType × (ℕ → ℕ → ValueType) :=
  (s.1 + s.2 e.1 e.2, setEdge s.2 e 0)

/-- The penalty and the matrix after the included edges are set to zero. -/
def includeEdges (matrix : ℕ → ℕ → ValueType) (includedEdges : List Edge) :
    ValueType × (ℕ → ℕ → ValueType) :=
  includedEdges.foldl includeEdge (0, matrix)

section Solve

variable (initialMatrix : ℕ → ℕ → ValueType) (dimension : ℕ) (upperBound epsilon alphaReduce : ValueType)
  (includedEdges : List Edge)

/-- `lagrangean`, for the edges of the 1-tree of a round. -/
def lagrangean (s : State) (edges : List Edge) : ValueType :=
  s.includedEdgesPenalty + (edges.map fun e => s.matrix e.1 e.2).sum -
    2 * ((List.range dimension).map s.lambda).sum

/-- The solution of a round. -/
def roundSolution (s : State) : MSOneTree.Solution ValueType :=
  let edges := (oneTree s.matrix dimension).edges
  { value := lagrangean dimension s edges, edges }

/-- `isGradientsRightDegree`. -/
def rightDegrees (edges : List Edge) : Bool :=
  (List.range dimension).all fun i => degrees edges i = tourDegree

/-- `sum_gradient`. -/
def sumGradient (edges : List Edge) : ℤ :=
  ((List.range dimension).map fun i => ((degrees edges i : ℤ) - tourDegree) ^ 2).sum

def step (s : State) (sol : MSOneTree.Solution ValueType) : ValueType :=
  s.alpha * (upperBound - sol.value) / sumGradient dimension sol.edges

/-- The end of a round that does not return. -/
def nextState (s : State) (sol : MSOneTree.Solution ValueType) : State :=
  let step := step dimension upperBound s sol
  let lambda := fun i => s.lambda i + step * degrees sol.edges i
  let included := includeEdges (multiplied initialMatrix lambda) includedEdges
  { iter := s.iter + 1
    matrix := included.2
    lambda
    alpha := s.alpha - alphaReduce
    includedEdgesPenalty := included.1
    solution := some sol }

/-- The body of the loop of `solve`. -/
def body (s : State) : State ⊕ MSOneTree.Solution ValueType × ℕ :=
  let sol := roundSolution oneTree dimension s
  if sol.value + epsilon > upperBound then .inr (sol, s.iter + 1)
  else if rightDegrees dimension sol.edges then .inr (sol, s.iter + 1)
  else .inl (nextState initialMatrix dimension upperBound alphaReduce includedEdges s sol)

def start : State where
  iter := 0
  matrix := initialMatrix
  lambda _ := 0
  alpha := alphaStartValue
  includedEdgesPenalty := 0
  solution := none

/-- `LagrangeanRelaxation::solve`, with the number of rounds. -/
def solve (maxIter : ℕ) : Option (MSOneTree.Solution ValueType × ℕ) :=
  let alphaReduce := (alphaStartValue - 1 / 100) / maxIter
  match Loop.bounded (body oneTree initialMatrix dimension upperBound epsilon alphaReduce includedEdges)
    maxIter (start initialMatrix) with
  | .inr r => some r
  | .inl s => s.solution.map (·, maxIter)

end Solve

end LagrangeanRelaxation

/-! ### `transform_node` -/

section TransformNode

variable (dimension : ℕ) (matrixOriginal : ℕ → ℕ → ValueType)

/-- The body of the loop over `u`: the edges of a vertex with two included ones are closed. -/
def closeEdges (adjacencyList : ℕ → List ℕ) (matrix : ℕ → ℕ → ValueType) (u : ℕ) :
    Option (ℕ → ℕ → ValueType) :=
  match adjacencyList u with
  | [front, back] => some ((List.range dimension).foldl (fun m v =>
      if v ≠ front ∧ v ≠ back then setEdge m (u, v) mVal else m) matrix)
  | adj => if adj.length < 3 then some matrix else none

/-- The matrix that `transform_node` hands to `lr_.solve`. -/
def nodeMatrix (node : Node) : Option (ℕ → ℕ → ValueType) :=
  (List.range dimension).foldlM (closeEdges dimension (adjacencyList node.includedEdges))
    (excludeEdges matrixOriginal node.excludedEdges)

/-- `LagrangeanSolver::transform_node`. -/
def transformNode (params : Parameters) (node : Node) (record : ValueType) : Option Node := do
  let matrix ← nodeMatrix dimension matrixOriginal node
  let (sol, _) ← LagrangeanRelaxation.solve oneTree matrix dimension record params.epsilon
    node.includedEdges params.gradientMaxIters
  return node.solved sol

end TransformNode

/-! ### The branching rules -/

inductive BranchingRule
  | rule1
  | rule2
  | rule3
  deriving DecidableEq

/-- The rule that `LagrangeanSolver::init` sets. -/
def Parameters.rule (params : Parameters) : BranchingRule :=
  match params.branchingRule with
  | some 2 => .rule2
  | some 3 => .rule3
  | _ => .rule1

section Rules

variable (dimension : ℕ) (matrixOriginal : ℕ → ℕ → ValueType) (node : Node)

def branchingRule1 : List Node := (selectMoves dimension node).map fun e => newNode node [] [e]

/-- `get_included_edges`. -/
def edgeMap (e : Edge) : Bool := e ∈ node.includedEdges ∨ (e.2, e.1) ∈ node.includedEdges

/-- The relaxation without the included edges. -/
def freeEdges : List Edge := node.data.relaxation.filter fun e => !edgeMap node e

/-- The vertex that `branching_rule2` selects. -/
def selectedVertex2 : ℕ :=
  ((List.range dimension).find? fun i => borderValue < degrees node.data.relaxation i &&
    borderValue ≤ degrees (freeEdges node) i).getD 0

/-- `selected_edges`. -/
def selectedEdges : List Edge :=
  let v := selectedVertex2 dimension node
  ((freeEdges node).filter fun e => e.1 = v ∨ e.2 = v).take borderValue

/-- `branching_rule2`; a failed `CHECK` is `none`. -/
def branchingRule2 : Option (List Node) :=
  let v := selectedVertex2 dimension node
  match selectedEdges dimension node with
  | [front, back] =>
    let rest := [newNode node [front] [back], newNode node [] [front]]
    some (if degrees node.data.relaxation v = degrees (freeEdges node) v then
      newNode node [front, back] [] :: rest else rest)
  | _ => none

/-- The body of the loop of `branching_rule3`, on `max_length` and `selected_edge`. -/
def maxEdgeStep (best : ValueType × Edge) (e : Edge) : ValueType × Edge :=
  if edgeMap node e then best
  else if borderValue < degrees node.data.relaxation e.1 ∨
      borderValue < degrees node.data.relaxation e.2 then
    if best.1 < matrixOriginal e.1 e.2 then (matrixOriginal e.1 e.2, e) else best
  else best

/-- `selected_edge`; `max_length` starts from the C++ literal `-1e16`. -/
def maxEdge : Edge := (node.data.relaxation.foldl (maxEdgeStep matrixOriginal node) (-10 ^ 16, (0, 0))).2

def branchingRule3 : List Node :=
  let e := maxEdge matrixOriginal node
  if e = (0, 0) then [] else [newNode node [] [e], newNode node [e] []]

/-- The nodes a rule returns. -/
def BranchingRule.nodes (rule : BranchingRule) : Option (List Node) :=
  match rule with
  | rule1 => some (branchingRule1 dimension node)
  | rule2 => branchingRule2 dimension node
  | rule3 => some (branchingRule3 matrixOriginal node)

end Rules

/-! ### Branching -/

section Branch

variable (data : InitialData) (params : Parameters)

/-- `LagrangeanSolver::branch`. -/
def branch (rule : BranchingRule) (node : Node) (record : ValueType) (sol : Solution) :
    Option (Branched Node) :=
  if node.data.value + params.epsilon ≥ record then some { record, sol, nodes := [], released := [] }
  else do
    let nodes ← rule.nodes data.rank data.matrix node
    nodes.foldlM (branchChild (transformNode oneTree data.rank data.matrix params) params.epsilon)
      { record, sol, nodes := [], released := [] }

/-- `LagrangeanSolver` after `init`, with the root and the initial solution it gives out. A call of
`branch` that does not return is modelled as one that hands its node back. -/
def lagrangeanSolver (fuel : ℕ) (rule : BranchingRule) : Option (Solver Node) := do
  let initialSolution ← getGreedySolution fuel data.matrix data.rank
  let initialNode ← transformNode oneTree data.rank data.matrix params (.root {}) initialSolution.value
  return {
    rank := data.rank
    initialNode
    initialSolution
    branch := fun node record sol => (branch oneTree data params rule node record sol).getD
      { record, sol, nodes := [node], released := [] }
    less := fun m n => m.data.value > n.data.value
    less_irrefl := Node.less_irrefl
    less_trans := Node.less_trans }

end Branch

end Optimer.Stsp

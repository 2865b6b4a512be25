import Optimer.Tsp.Symmetric

/-! `ClassicalSolver`, which bounds the tours of a node by a minimum 1-tree and excludes edges. -/

namespace Optimer.Stsp.ClassicalSolver
open Optimer.Tsp

variable (data : InitialData)

/-- `matrix_` of a node. -/
def nodeMatrix (node : Node) : ℕ → ℕ → ValueType := excludeEdges data.matrix node.excludedEdges

/-- `ClassicalSolver::transform_node`. -/
def transformNode (node : Node) : Node := node.solved (MSOneTree.solve (nodeMatrix data node) data.rank)

/-- The new nodes of `branch`. -/
def newNodes (node : Node) : List Node := (selectMoves data.rank node).map fun e => newNode node [] [e]

/-- `ClassicalSolver::branch`; a node whose value exceeds the record is only counted. -/
def branch (node : Node) (record : ValueType) (sol : Solution) : Option (Branched Node) :=
  if newNodes data node = [] then none
  else (newNodes data node).foldlM (branchChild (fun new _ => some (transformNode data new)) 0)
    { record, sol, nodes := [], released := [] }

/-- `ClassicalSolver` after `init`, with the root and the initial solution it gives out. A call of `branch`
that does not return is modelled as one that hands its node back. -/
def classicalSolver (fuel : ℕ) : Option (Solver Node) := do
  let initialSolution ← getGreedySolution fuel data.matrix data.rank
  return {
    rank := data.rank
    initialNode := transformNode data (.root {})
    initialSolution
    branch := fun node record sol => (branch data node record sol).getD
      { record, sol, nodes := [node], released := [] }
    less := fun m n => m.data.value > n.data.value
    less_irrefl := Node.less_irrefl
    less_trans := Node.less_trans }

end Optimer.Stsp.ClassicalSolver

import Optimer.Tsp.OneTree

/-! What the two solvers for the symmetric problem share: the nodes of their search trees, the degrees
and the neighbours in a relaxation, the choice of the edges to exclude, `build_tour` and the loop over the new
nodes. `none` is a run that ends in a failed `CHECK` or reads outside a vector. -/

namespace Optimer.Stsp
open Optimer.Tsp

/-- `tsp::Set`; `level` is only counted up. -/
structure TspSet where
  value : ValueType := 0
  relaxation : List Edge := []
  excludedEdges : List Edge := []
  includedEdges : List Edge := []

/-- `bnb::Node<tsp::Set>`. -/
inductive Node
  | root (data : TspSet)
  | child (parent : Node) (data : TspSet)

namespace Node

def data : Node → TspSet
  | root data => data
  | child _ data => data

/-- The included edges from the node up to the root, which has none. -/
def includedEdges : Node → List Edge
  | root _ => []
  | child parent data => data.includedEdges ++ parent.includedEdges

def excludedEdges : Node → List Edge
  | root _ => []
  | child parent data => data.excludedEdges ++ parent.excludedEdges

/-- The node with the results of `transform_node` filled in. -/
def solved (node : Node) (sol : MSOneTree.Solution ValueType) : Node :=
  match node with
  | root data => root { data with value := sol.value, relaxation := sol.edges }
  | child parent data => child parent { data with value := sol.value, relaxation := sol.edges }

/-! The order of the nodes in a priority queue. -/

theorem less_irrefl (n : Node) : ¬ n.data.value > n.data.value := lt_irrefl _

theorem less_trans {l m n : Node} (h : l.data.value > m.data.value) (h' : m.data.value > n.data.value) :
    l.data.value > n.data.value := lt_trans h' h

end Node

/-- A new node before `transform_node`. -/
def newNode (node : Node) (included excluded : List Edge) : Node :=
  .child node { includedEdges := included, excludedEdges := excluded }

/-- A matrix after the entries of an edge are set, in both directions. -/
def setEdge (matrix : ℕ → ℕ → ValueType) (e : Edge) (x : ValueType) (i j : ℕ) : ValueType :=
  if (i, j) = e ∨ (j, i) = e then x else matrix i j

/-- The matrix without the excluded edges. -/
def excludeEdges (matrix : ℕ → ℕ → ValueType) (edges : List Edge) : ℕ → ℕ → ValueType :=
  edges.foldl (fun m e => setEdge m e mVal) matrix

/-- `++degrees[edge.first]; ++degrees[edge.second]`. -/
def countEdge (degrees : ℕ → ℕ) (e : Edge) : ℕ → ℕ :=
  let degrees := Function.update degrees e.1 (degrees e.1 + 1)
  Function.update degrees e.2 (degrees e.2 + 1)

def degrees (edges : List Edge) : ℕ → ℕ := edges.foldl countEdge fun _ => 0

/-- The two `push_back` of an edge. -/
def addEdge (adjacencyList : ℕ → List ℕ) (e : Edge) : ℕ → List ℕ :=
  let adjacencyList := Function.update adjacencyList e.1 (adjacencyList e.1 ++ [e.2])
  Function.update adjacencyList e.2 (adjacencyList e.2 ++ [e.1])

def adjacencyList (edges : List Edge) : ℕ → List ℕ := edges.foldl addEdge fun _ => []

/-- `BORDER_VALUE`. -/
def borderValue : ℕ := 2

/-- The first vertex with the least degree above two, or `0`. -/
def selectedVertex (dimension : ℕ) (relaxation : List Edge) : ℕ :=
  ((List.range dimension).foldl (fun best i =>
    if borderValue < degrees relaxation i ∧ degrees relaxation i < best.2 then
      (i, degrees relaxation i)
    else best) (0, dimension)).1

/-- `ClassicalSolver::select_moves`, and the moves of `LagrangeanSolver::branching_rule1`. -/
def selectMoves (dimension : ℕ) (node : Node) : List Edge :=
  let v := selectedVertex dimension node.data.relaxation
  node.data.relaxation.filter fun e => e.1 = v ∨ e.2 = v

/-! ### `build_tour` -/

/-- The body of the loop of `build_tour`, on `tour` and `added_vertices`; `none` gives up. -/
def buildTourStep (adjacencyList : ℕ → List ℕ) (s : List ℕ × List ℕ) (_ : ℕ) :
    Option (List ℕ × List ℕ) :=
  let (tour, addedVertices) := s
  let previousVertex := tour.getD (tour.length - 2) 0
  let adj := adjacencyList (tour.getLastD 0)
  let next :=
    if adj.headD 0 = previousVertex then some (adj.getLastD 0)
    else if adj.getLastD 0 = previousVertex then some (adj.headD 0)
    else none
  match next with
  | none => none
  | some v => if v ∈ addedVertices then none else some (tour ++ [v], addedVertices ++ [v])

/-- `build_tour`; `none` is a read outside a vector. -/
def buildTour (edges : List Edge) : Option (List ℕ) :=
  let n := edges.length
  if n = 0 ∨ edges.any (fun e => n ≤ e.1 || n ≤ e.2) then none
  else if (List.range n).any fun i => (adjacencyList edges i).length != 2 then some []
  else
    let first := (adjacencyList edges 0).headD 0
    match (List.range' 1 (n - 1)).foldlM (buildTourStep (adjacencyList edges)) ([0, first], [first]) with
    | none => some []
    | some (tour, _) => some tour

/-! ### The loop of `branch` -/

/-- The body of the loop of `branch` over the new nodes, for the `transform_node` of a solver and its
`epsilon`. `build_solution` writes the route of `sol` even where it finds none. -/
def branchChild (transform : Node → ValueType → Option Node) (epsilon : ValueType)
    (b : Branched Node) (new : Node) : Option (Branched Node) := do
  let child ← transform new b.record
  if child.data.value + epsilon ≥ b.record then
    return { b with released := b.released ++ [child] }
  else
    let route ← buildTour child.data.relaxation
    if route = [] then
      return { b with sol := { b.sol with route }, nodes := b.nodes ++ [child] }
    else
      return { b with
        record := child.data.value
        sol := { value := child.data.value, route }
        released := b.released ++ [child] }

end Optimer.Stsp

import Mathlib.Data.Rat.Floor
import Optimer.Tsp.Types

/-! The ants of `aco_tsp`. `pow` and `sort` stand for the library's functions, `random` for the values of
`rand()`; the matrices are read as in the other solvers. -/

namespace Optimer.AcoTsp
open Optimer.Tsp

/-- What an ant uses of `Params`, with the values of the constructor. -/
structure Params where
  alpha : ValueType := 1
  beta : ValueType := 1
  candidateListFactor : ValueType := 1 / 4

/-- An ant between two calls of `solve`; as constructed it has the default parameters. -/
structure Ant where
  startPoint : ℕ := 0
  dimension : ℕ := 0
  candidateListSize : ℕ := 0
  matrixDist : ℕ → ℕ → ValueType := fun _ _ => 0
  matrixTheta : ℕ → ℕ → ValueType := fun _ _ => 0
  params : Params := {}

/-- `Ant::init`. The list size is computed from the parameters that the ant had before. -/
def Ant.init (ant : Ant) (matrixDist matrixTheta : ℕ → ℕ → ValueType) (dimension : ℕ)
    (params : Params) (startPoint : ℕ) : Ant where
  startPoint
  dimension
  candidateListSize := ⌊(dimension : ValueType) * ant.params.candidateListFactor⌋.toNat
  matrixDist
  matrixTheta
  params

/-- The local variables of `solve`, with `selected_vertices_` and `route_`. -/
structure State where
  selectedVertices : ℕ → Bool
  route : List ℕ
  currVertex : ℕ

/-- `get_list_points`. -/
def getListPoints (dimension : ℕ) (selectedVertices : ℕ → Bool) : List ℕ :=
  (List.range dimension).filter fun i => !selectedVertices i

/-- `append_vertex`. -/
def State.appendVertex (s : State) (vertex : ℕ) : State :=
  { s with selectedVertices := Function.update s.selectedVertices vertex true
           route := s.route ++ [vertex] }

/-- The loop that adds up the probabilities until the sum exceeds the random value. -/
def selectPoint (multinv : ValueType) (randomValue : ℕ) (sum : ValueType) :
    List (ℕ × ValueType) → Option ℕ
  | [] => none
  | (point, probability) :: rest =>
    let sum := sum + probability / multinv
    if sum > randomValue then some point else selectPoint multinv randomValue sum rest

section

variable (pow : ValueType → ValueType → ValueType) (sort : (ℕ → ValueType) → List ℕ → List ℕ)
  (ant : Ant)

/-- `select_candidate_list`; `std::sort` compares the distances from the current vertex. -/
def selectCandidateList (points : List ℕ) (currVertex : ℕ) : List ℕ :=
  if ant.candidateListSize < points.length then
    (sort (ant.matrixDist currVertex) points).take ant.candidateListSize
  else points

/-- `get_next_point`, with the value of `rand()`; `none` is the `CHECK_F` failing. -/
def getNextPoint (selectedVertices : ℕ → Bool) (currVertex random : ℕ) : Option ℕ :=
  let points := getListPoints ant.dimension selectedVertices
  if points = [] then some ant.dimension
  else
    let points :=
      if ant.params.candidateListFactor > 0 then selectCandidateList sort ant points currVertex
      else points
    let probabilities := points.map fun point =>
      pow (ant.matrixTheta currVertex point) ant.params.alpha /
        pow (ant.matrixDist currVertex point) ant.params.beta
    let multinv := probabilities.sum / 100
    selectPoint multinv (random % 100) 0 (points.zip probabilities)

/-- The body of the loop of `solve`; every round before the last one takes a random number. -/
def solveBody (random : ℕ → ℕ) (s : State) : Option (State ⊕ State) :=
  if s.currVertex < ant.dimension then
    let t := s.appendVertex s.currVertex
    (getNextPoint pow sort ant t.selectedVertices s.currVertex (random s.route.length)).map
      fun v => .inl { t with currVertex := v }
  else some (.inr s)

/-- The state in which the loop begins. -/
def Ant.start : State where
  selectedVertices _ := false
  route := []
  currVertex := ant.startPoint

/-- `Ant::solve`. -/
def Ant.solve (random : ℕ → ℕ) (fuel : ℕ) : Option Solution := do
  let s ← Loop.iterate (solveBody pow sort ant random) fuel ant.start
  let front ← s.route.head?
  let s := s.appendVertex front
  let (sol, _) ← twoOpt fuel ant.matrixDist { value := calcValue ant.matrixDist s.route, route := s.route }
  return sol

end

end Optimer.AcoTsp

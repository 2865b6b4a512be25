import Mathlib.Algebra.BigOperators.Group.List.Basic
import Optimer.Lib.Loop
import Optimer.Bnb.Solver

/-! The common types of the travelling salesman solvers, `two_opt` and the greedy solution they start
from. `matrix i j` stands for `matrix[i*dimension+j]`; `fuel` bounds the rounds of a `while` loop. -/

namespace Optimer.Tsp

/-- `tsp::Edge`. -/
abbrev Edge := ℕ × ℕ

instance (e : Edge) (l : List Edge) : Decidable (e ∈ l) := inferInstance

/-- `tsp::InitialData`; of the parameters only the number read for `branching_rule` is used. -/
structure InitialData where
  matrix : ℕ → ℕ → ValueType
  rank : ℕ
  /-- The matrix is a vector, whose size is a `size_t`. -/
  size_lt : rank * rank < 2 ^ 64
  branchingRule : Option ℕ := none

/-! The sizes of small matrices. -/

theorem size_lt_three : 3 * 3 < 2 ^ 64 := by decide

theorem size_lt_four : 4 * 4 < 2 ^ 64 := by decide

theorem size_lt_five : 5 * 5 < 2 ^ 64 := by decide

/-- `Solution::calc_value`. -/
def calcValue (matrix : ℕ → ℕ → ValueType) (route : List ℕ) : ValueType :=
  (List.zipWith matrix route route.tail).sum

/-- The body of the inner loop of `two_opt`, with `second = first + 1`. -/
def twoOptStep (matrix : ℕ → ℕ → ValueType) (s : Solution × Bool) (first : ℕ) : Solution × Bool :=
  let route := s.1.route
  let a := route.getD (first - 1) 0
  let x := route.getD first 0
  let y := route.getD (first + 1) 0
  let b := route.getD (first + 2) 0
  let delta := (matrix a x + matrix x y + matrix y b) - (matrix a y + matrix y x + matrix x b)
  if delta > 0 then
    ({ value := s.1.value - delta, route := (route.set first y).set (first + 1) x }, true)
  else s

/-- The inner loop of `two_opt`, while `second < route.size() - 2`, and whether it changed anything. -/
def twoOptPass (matrix : ℕ → ℕ → ValueType) (sol : Solution) : Solution × Bool :=
  (List.range' 1 (sol.route.length - 4)).foldl (twoOptStep matrix) (sol, false)

def twoOptBody (matrix : ℕ → ℕ → ValueType) (s : Solution × Bool) :
    Option (Solution × Bool ⊕ Solution × Bool) :=
  let (sol, again) := twoOptPass matrix s.1
  some (if again then .inl (sol, true) else .inr (sol, s.2))

/-- `two_opt`, with the value it returns. -/
def twoOpt (fuel : ℕ) (matrix : ℕ → ℕ → ValueType) (sol : Solution) : Option (Solution × Bool) :=
  Loop.iterate (twoOptBody matrix) fuel (sol, false)

/-- The nearest of the vertices and its distance. `M_VAL + 10` is a sum of two `float` constants,
which is `M_VAL` again; `min_vertex` keeps its old value, or none, when no vertex is nearer. -/
def nearest (row : ℕ → ValueType) (vertices : List ℕ) (minVertex : Option ℕ) :
    ValueType × Option ℕ :=
  vertices.foldl (fun best vertex => if row vertex < best.1 then (row vertex, some vertex) else best)
    (mVal, minVertex)

/-- The local variables of the greedy construction. -/
structure Greedy where
  vertices : List ℕ
  currVertex : ℕ
  minVertex : Option ℕ
  sol : Solution

/-- The body of the `while` loop; the use of a `min_vertex` without a value fails. -/
def greedyBody (matrix : ℕ → ℕ → ValueType) (s : Greedy) : Option (Greedy ⊕ Greedy) :=
  if s.vertices = [] then some (.inr s)
  else
    match nearest (matrix s.currVertex) s.vertices s.minVertex with
    | (_, none) => none
    | (minValue, some v) => some (.inl
      { vertices := s.vertices.erase v
        currVertex := v
        minVertex := some v
        sol := { value := s.sol.value + minValue, route := s.sol.route ++ [v] } })

/-- `get_greedy_solution` from one start vertex. -/
def getGreedySolutionFrom (fuel : ℕ) (matrix : ℕ → ℕ → ValueType) (dimension startVertex : ℕ) :
    Option Solution := do
  let s ← Loop.iterate (greedyBody matrix) fuel
    { vertices := (List.range dimension).erase startVertex
      currVertex := startVertex
      minVertex := none
      sol := { value := 0, route := [startVertex] } }
  return { value := s.sol.value + matrix s.currVertex startVertex, route := s.sol.route ++ [startVertex] }

/-- The body of the loop over the start vertices. -/
def greedyRound (fuel : ℕ) (matrix : ℕ → ℕ → ValueType) (dimension : ℕ) (best : Solution) (i : ℕ) :
    Option Solution := do
  let sol ← getGreedySolutionFrom fuel matrix dimension i
  let (sol, _) ← twoOpt fuel matrix sol
  return if sol.value < best.value then sol else best

/-- `get_greedy_solution`. -/
def getGreedySolution (fuel : ℕ) (matrix : ℕ → ℕ → ValueType) (dimension : ℕ) : Option Solution :=
  (List.range dimension).foldlM (greedyRound fuel matrix dimension) { value := mVal, route := [] }

end Optimer.Tsp

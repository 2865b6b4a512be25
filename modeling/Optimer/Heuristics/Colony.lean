import Mathlib.Algebra.Order.Field.Rat
import Optimer.Common.IniFile
import Optimer.Heuristics.AntCorrect

/-! The colony of `aco_tsp::solve`. `shuffled` are the vertices after `random_shuffle`, `random n k` the values of
`rand()` that the ant `k` sees in the iteration `n`, and `interrupted n` says whether a signal has come before
it. -/

namespace Optimer.AcoTsp
open Optimer.Tsp

/-- `Params`, with the values of the constructor; `0.2` is a `double`. -/
structure ColonyParams extends Params where
  p : ValueType := 3602879701896397 / 2 ^ 54
  q : ValueType := 10000
  iterations : ℕ := 1000

/-- The literal `0.01`. -/
def hundredth : ValueType := 5764607523034235 / 2 ^ 59

/-- A number that is `defVal` unless the section has it. -/
def findNumber (parameters : Ini.IniSection) (key : String) (defVal : ValueType) : Option ValueType :=
  match parameters key.toList with
  | none => some defVal
  | some text => stringToDouble text defVal

/-- A `double` as a `size_t`; undefined where it is none. -/
def toSizeT (x : ValueType) : Option ℕ :=
  if -1 < x ∧ x < 2 ^ 64 then some ⌊x⌋.toNat else none

/-- `Params::init`. -/
def ColonyParams.init (params : ColonyParams) (parameters : Ini.IniSection) : Option ColonyParams := do
  let alpha ← findNumber parameters "alpha" params.alpha
  let beta ← findNumber parameters "beta" params.beta
  let p ← findNumber parameters "p" params.p
  let q ← findNumber parameters "q" params.q
  let candidateListFactor ← findNumber parameters "candidate_list_factor" params.candidateListFactor
  let iterations ← findNumber parameters "iterations" params.iterations
  let iterations ← toSizeT iterations
  return { alpha, beta, candidateListFactor, p, q, iterations }

/-! ### `update_pheromone` -/

/-- `matrix[e.first * dimension + e.second] += x`. -/
def addAt (x : ValueType) (matrix : ℕ → ℕ → ValueType) (e : Edge) : ℕ → ℕ → ValueType :=
  Function.update matrix e.1 (Function.update (matrix e.1) e.2 (matrix e.1 e.2 + x))

/-- What one ant leaves on its route. -/
def deposit (q : ValueType) (matrixTheta : ℕ → ℕ → ValueType) (sol : Solution) : ℕ → ℕ → ValueType :=
  (sol.route.zip sol.route.tail).foldl (addAt (q / sol.value)) matrixTheta

def updatePheromone (params : ColonyParams) (solutions : List Solution) (matrixTheta : ℕ → ℕ → ValueType) :
    ℕ → ℕ → ValueType :=
  solutions.foldl (deposit params.q) fun i j => matrixTheta i j * (1 - params.p) + hundredth

/-! ### `solve` -/

/-- The local variables of `solve`; `found` are all solutions of the iterations so far, which the code does not
keep. -/
structure Colony where
  matrixTheta : ℕ → ℕ → ValueType
  bestSolution : Solution
  found : List Solution

def colonyStart (matrixDist : ℕ → ℕ → ValueType) (params : ColonyParams) : Colony where
  matrixTheta i j := matrixDist i j * (1 - params.p) + hundredth
  bestSolution := { value := mVal }
  found := []

/-- The ants, which see the pheromone matrix through a pointer; they are as many as half of the vertices. -/
def Colony.ants (c : Colony) (matrixDist : ℕ → ℕ → ValueType) (dimension : ℕ) (params : ColonyParams)
    (shuffled : List ℕ) : List Ant :=
  (shuffled.take (dimension / 2)).map (Ant.init {} matrixDist c.matrixTheta dimension params.toParams)

/-- The loop that takes the better solutions. -/
def takeBest (best : Solution) (solutions : List Solution) : Solution :=
  solutions.foldl (fun best sol => if sol.value < best.value then sol else best) best

section

variable (pow : ValueType → ValueType → ValueType) (sort : (ℕ → ValueType) → List ℕ → List ℕ) (fuel : ℕ)

/-- The solutions of some ants, of which the first one has the number `k`. -/
def solveAnts (random : ℕ → ℕ → ℕ) : ℕ → List Ant → Option (List Solution)
  | _, [] => some []
  | k, ant :: ants => do
    let sol ← ant.solve pow sort (random k) fuel
    let sols ← solveAnts random (k + 1) ants
    return sol :: sols

variable (matrixDist : ℕ → ℕ → ValueType) (dimension : ℕ) (params : ColonyParams) (shuffled : List ℕ)
  (random : ℕ → ℕ → ℕ → ℕ) (interrupted : ℕ → Bool)

/-- The body of the loop of `solve`. -/
def Colony.iteration (n : ℕ) (c : Colony) : Option Colony := do
  let solutions ← solveAnts pow sort fuel (random n) 0 (c.ants matrixDist dimension params shuffled)
  return { matrixTheta := updatePheromone params solutions c.matrixTheta
           bestSolution := takeBest c.bestSolution solutions
           found := c.found ++ solutions }

/-- The loop of `solve` with so many iterations left, from the iteration `n`. -/
def Colony.loop : ℕ → ℕ → Colony → Option Colony
  | 0, _, c => some c
  | left + 1, n, c =>
    if interrupted n then some c else
      (c.iteration pow sort fuel matrixDist dimension params shuffled random n).bind (Colony.loop left (n + 1))

/-- `aco_tsp::solve` after the parameters are read, with the state it ends in. -/
def colony : Option Colony :=
  Colony.loop pow sort fuel matrixDist dimension params shuffled random interrupted params.iterations 0
    (colonyStart matrixDist params)

/-- `aco_tsp::solve`. -/
def solve (parameters : Ini.IniSection) : Option Solution := do
  let params ← ColonyParams.init {} parameters
  let c ← colony pow sort fuel matrixDist dimension params shuffled random interrupted
  return c.bestSolution

end

end Optimer.AcoTsp

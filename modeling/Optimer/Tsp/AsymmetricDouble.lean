import Optimer.Lib.Binary64
import Optimer.Tsp.Reached

/-! `TspSolver` with the arithmetic of `value_type` as a parameter: exact, as everywhere else, or that of
`double`, which rounds every sum. A value summed in the order of the rows then need not be the cost of its
route. -/

namespace Optimer
open Tsp ApSolver

/-- What `value_type` does to the result of an addition or a subtraction, and its `is_zero`. -/
structure Arithmetic where
  round : ℚ → ℚ
  isZero : ℚ → Bool

namespace Arithmetic

/-- An exact type, with the primary template of `is_zero`. -/
def exact : Arithmetic where
  round := id
  isZero x := x = 0

/-- `double`, for sums that it has a number for; `is_zero<double>` has a tolerance. -/
def double : Arithmetic where
  round x := (Binary64.nearest x).getD 0
  isZero x := |x| < 1 / 2 ^ 52

variable (A : Arithmetic)

/-! ### `ApSolver` -/

section ApSolver

variable (n : ℕ) (matrix : ℕ → ℕ → ValueType)

def assignStep (u v : ℕ → ValueType) (row : ℕ → ℕ) (i : ℕ) : ℕ → ℕ :=
  match (List.range n).find? fun j => row j = n ∧ matrix i j = A.round (u i + v j) with
  | some j => Function.update row j i
  | none => row

def preprocess : Option ApSolver.Solution → (ℕ → ℕ) × ApSolver.Solution
  | none =>
    let dualU i := minOver n fun j => matrix i j
    let dualV j := minOver n fun i => A.round (matrix i j - dualU i)
    let row := (List.range n).foldl (A.assignStep n matrix dualU dualV) fun _ => n
    (row, { dualU, dualV, primal := inverse n row })
  | some sol => (inverse n sol.primal, sol)

def val (s : Scan) (r j : ℕ) : ValueType := A.round (A.round (matrix r j - s.dualU r) - s.dualV j)

def scanRow (s : Scan) : Scan :=
  let hit j := s.labeledV j = false ∧ A.val matrix s s.i j < s.pi j
  { s with
    scannedU := Function.update s.scannedU s.i true
    pred := fun j => if hit j then s.i else s.pred j
    pi := fun j => if hit j then A.val matrix s s.i j else s.pi j
    labeledV := fun j => if hit j ∧ A.isZero (A.val matrix s s.i j) then true else s.labeledV j }

/-- `is_zero` of a slack; `big_value_` is none. -/
def isZeroPi : WithTop ValueType → Bool
  | ⊤ => false
  | (x : ValueType) => A.isZero x

def shift (s : Scan) (d : ValueType) : Scan :=
  let pi k := if s.labeledV k then s.pi k else (s.pi k).map fun x => A.round (x - d)
  { s with
    dualU := fun k => if s.scannedU k then A.round (s.dualU k + d) else s.dualU k
    dualV := fun k => if s.labeledV k then A.round (s.dualV k - d) else s.dualV k
    pi := pi
    labeledV := fun k => if s.labeledV k = false ∧ A.isZeroPi (pi k) then true else s.labeledV k }

def dualUpdate (s : Scan) : Option Scan :=
  match s.delta n with
  | ⊤ => none
  | (d : ValueType) => some (A.shift s d)

def augmentBody (row : ℕ → ℕ) (s : Scan) : Option (Scan ⊕ ℕ × Scan) :=
  if s.i < n then
    let s := A.scanRow matrix s
    match s.nextColumn n with
    | some j =>
      let s := { s with scannedV := Function.update s.scannedV j true }
      if row j = n then some (.inr (j, s)) else some (.inl { s with i := row j })
    | none => (A.dualUpdate n s).map .inl
  else none

def solveBody (fuel : ℕ) (s : (ℕ → ℕ) × ApSolver.Solution) :
    Option ((ℕ → ℕ) × ApSolver.Solution ⊕ ApSolver.Solution) :=
  match nextUnassigned n s.2.primal with
  | none => some (.inr s.2)
  | some k => do
    let (j, t) ← Loop.iterate (A.augmentBody n matrix s.1) fuel (.start n k s.2)
    let (row, phi) ← Loop.iterate (flipBody n t.pred k) fuel { j, row := s.1, phi := s.2.primal }
    return .inl (row, { dualU := t.dualU, dualV := t.dualV, primal := phi })

def solve (fuel : ℕ) (start : Option ApSolver.Solution) : Option ApSolver.Solution :=
  Loop.iterate (A.solveBody n matrix fuel) fuel (A.preprocess n matrix start)

end ApSolver

/-! ### `TspSolver` -/

section TspSolver

variable (fuel : ℕ) (data : InitialData)

/-- The sum at the end of `transform_node`, in the order of the rows. -/
def value (p : ℕ → ℕ) : ValueType :=
  (List.range data.rank).foldl (fun value i => A.round (value + data.matrix i (p i))) 0

/-- `Solution::calc_value`, in the order of the route. -/
def calcValue (route : List ℕ) : ValueType :=
  (List.zipWith data.matrix route route.tail).foldl (fun value cost => A.round (value + cost)) 0

def transformNode (node : Node) : Option Node := do
  let start ← apStart data node
  let sol ← A.solve (dimensionNew data node) (matrixNew data node) fuel start
  let apSolution := apOriginal data node sol
  return node.solved (A.value data apSolution.primal) apSolution

def branchChild (b : Branched Node) (new : Node) : Option (Branched Node) := do
  let child ← A.transformNode fuel data new
  if hasSolution child.data.apSolution.primal data.rank then
    if child.data.value < b.record then
      let route := createTour child.data.apSolution.primal data.rank
      if route = [] then none
      else
        return { b with
          record := child.data.value
          sol := { value := child.data.value, route }
          released := b.released ++ [child] }
    else return { b with released := b.released ++ [child] }
  else if child.data.value < b.record then return { b with nodes := b.nodes ++ [child] }
  else return { b with released := b.released ++ [child] }

/-- `branch` with the default rule 3, which computes nothing itself. -/
def branch (node : Node) (record : ValueType) (sol : Solution) : Option (Branched Node) :=
  if node.data.value ≥ record then some { record, sol, nodes := [], released := [] }
  else do
    let (nodes, released) ← BranchingRule.rule3.nodes fuel data node
    nodes.foldlM (A.branchChild fuel data) { record, sol, nodes := [], released }

end TspSolver

/-! ### The exact arithmetic -/

section Exact

variable {n fuel : ℕ} {matrix : ℕ → ℕ → ValueType} {data : InitialData}

theorem exact_scanRow (s : Scan) : exact.scanRow matrix s = s.scanRow matrix := by
  have hzero : ∀ x, exact.isZero x = true ↔ x = 0 := fun x => decide_eq_true_iff
  simp only [scanRow, Scan.scanRow, hzero]
  rfl

theorem exact_shift (s : Scan) (d : ValueType) : exact.shift s d = s.shift d := by
  have hzero : ∀ x : WithTop ValueType, exact.isZeroPi x = true ↔ x = (0 : ValueType) := by
    intro x
    cases x with
    | top => simp [isZeroPi]
    | coe x => simp [isZeroPi, exact]
  simp only [shift, Scan.shift, hzero]
  rfl

theorem exact_dualUpdate (s : Scan) : exact.dualUpdate n s = s.dualUpdate n := by
  cases h : s.delta n with
  | top => simp [dualUpdate, Scan.dualUpdate, h]
  | coe d => simp [dualUpdate, Scan.dualUpdate, h, exact_shift]

theorem exact_augmentBody (row : ℕ → ℕ) (s : Scan) :
    exact.augmentBody n matrix row s = ApSolver.augmentBody n matrix row s := by
  cases h : (s.scanRow matrix).nextColumn n with
  | none => simp [augmentBody, ApSolver.augmentBody, exact_scanRow, exact_dualUpdate, h]
  | some j => simp [augmentBody, ApSolver.augmentBody, exact_scanRow, h]

theorem exact_solve (start : Option ApSolver.Solution) :
    exact.solve n matrix fuel start = ApSolver.solve fuel n matrix start := by
  have hbody : exact.augmentBody n matrix = ApSolver.augmentBody n matrix := by
    funext row s
    exact exact_augmentBody row s
  have hsolve : exact.solveBody n matrix fuel = ApSolver.solveBody fuel n matrix := by
    funext s
    rw [solveBody, hbody]
    rfl
  rw [solve, hsolve]
  cases start <;> rfl

theorem exact_value (p : ℕ → ℕ) : exact.value data p = cost data.rank data.matrix p := by
  unfold value cost
  induction data.rank with
  | zero => rfl
  | succ n ih =>
    rw [List.range_succ, List.foldl_append, ih, Finset.sum_range_succ]
    rfl

/-- In exact arithmetic this is the solver of the other results. -/
theorem exact_transformNode (node : Node) :
    exact.transformNode fuel data node = Tsp.transformNode data node fuel := by
  simp only [transformNode, Tsp.transformNode, exact_solve, exact_value]

theorem exact_branch (node : Node) (record : ValueType) (sol : Solution) :
    exact.branch fuel data node record sol = Tsp.branch fuel data .rule3 node record sol := by
  have hchild : exact.branchChild fuel data = Tsp.branchChild fuel data := by
    funext b new
    simp only [branchChild, Tsp.branchChild, exact_transformNode]
  rw [branch, hchild]
  rfl

end Exact

/-! ### Rounding -/

/-- Two arcs of a tenth and the others of three tenths, as `double`s. -/
def tenthsData : InitialData where
  matrix i j := if i = j then mVal
    else if (i, j) ∈ [(0, 3), (3, 1)] then double.round (1 / 10) else double.round (3 / 10)
  rank := 4
  size_lt := size_lt_four

/-- The record is the cost of a tour, `0.8`, before the call. Rule 3 finds the tour again and lowers the record to
the sum of the same four costs in the order of the rows, which is below the cost of every tour. -/
theorem record_inconsistent_double :
    double.calcValue tenthsData [0, 3, 1, 2, 0] = double.round (8 / 10) ∧
    ∃ root ∈ double.transformNode 40 tenthsData (.root {}),
      ∃ b ∈ double.branch 40 tenthsData root (double.round (8 / 10)) ⟨double.round (8 / 10), [0, 3, 1, 2, 0]⟩,
        b.record < double.round (8 / 10) ∧ b.sol = ⟨b.record, [0, 3, 1, 2, 0]⟩ ∧
        ¬ Recorded tenthsData b.record b.sol ∧
        ∀ l ∈ ([1, 2, 3] : List ℕ).permutations',
          b.record < double.calcValue tenthsData (0 :: (l ++ [0])) ∧
            b.record < Tsp.calcValue tenthsData.matrix (0 :: (l ++ [0])) := by
  have hrun : ∃ root ∈ double.transformNode 40 tenthsData (.root {}),
      ∃ b ∈ double.branch 40 tenthsData root (double.round (8 / 10)) ⟨double.round (8 / 10), [0, 3, 1, 2, 0]⟩,
        b.record < double.round (8 / 10) ∧ b.sol = ⟨b.record, [0, 3, 1, 2, 0]⟩ ∧
        ∀ l ∈ ([1, 2, 3] : List ℕ).permutations',
          b.record < double.calcValue tenthsData (0 :: (l ++ [0])) ∧
            b.record < Tsp.calcValue tenthsData.matrix (0 :: (l ++ [0])) := by decide +kernel
  obtain ⟨root, hroot, b, hb, hlt, hsol, hall⟩ := hrun
  refine ⟨by decide +kernel, root, hroot, b, hb, hlt, hsol, fun hrec => ?_, hall⟩
  have hcost : Tsp.calcValue tenthsData.matrix [0, 3, 1, 2, 0] = b.record := by
    have h := hrec.cost
    rwa [hsol] at h
  exact (hall [3, 1, 2] (by decide)).2.ne' hcost

end Arithmetic

end Optimer

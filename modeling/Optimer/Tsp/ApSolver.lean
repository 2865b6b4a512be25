import Mathlib.Algebra.Order.Ring.Rat
import Mathlib.Order.WithBot
import Optimer.Lib.Loop
import Optimer.Bnb.Solver

/-! `ApSolver`, the shortest augmenting path method for the assignment problem. Vectors of size
`dimension_` are functions on the indices; an index from `dimension_` on stands for "not assigned".
`fuel` bounds the rounds of every `while` loop. -/

namespace Optimer.ApSolver

/-- `ApSolver::Solution`. -/
structure Solution where
  dualU : ℕ → ValueType
  dualV : ℕ → ValueType
  primal : ℕ → ℕ

/-- The minimum over the indices that are not skipped, started from `big_value_`: `⊤` stands for a
value above every cost and every slack. -/
def least (n : ℕ) (skip : ℕ → Bool) (f : ℕ → WithTop ValueType) : WithTop ValueType :=
  (List.range n).foldl (fun b j => if skip j then b else min b (f j)) ⊤

/-- A row or column minimum of `preprocess`. -/
def minOver (n : ℕ) (f : ℕ → ValueType) : ValueType :=
  (least n (fun _ => false) fun j => f j).untopD 0

/-- A round of the loops that turn `row_` into `primal`, and `primal` into `row_`. -/
def inverseStep (n : ℕ) (f g : ℕ → ℕ) (a : ℕ) : ℕ → ℕ :=
  if f a < n then Function.update g (f a) a else g

def inverse (n : ℕ) (f : ℕ → ℕ) : ℕ → ℕ := (List.range n).foldl (inverseStep n f) fun _ => n

/-- The partial assignment of `preprocess`: a row takes its first free column without slack. -/
def assignStep (n : ℕ) (matrix : ℕ → ℕ → ValueType) (u v : ℕ → ValueType) (row : ℕ → ℕ) (i : ℕ) :
    ℕ → ℕ :=
  match (List.range n).find? fun j => row j = n ∧ matrix i j = u i + v j with
  | some j => Function.update row j i
  | none => row

def assignRows (n : ℕ) (matrix : ℕ → ℕ → ValueType) (u v : ℕ → ValueType) : ℕ → ℕ :=
  (List.range n).foldl (assignStep n matrix u v) fun _ => n

/-- `ApSolver::preprocess`; it gives back `row_` and the solution. `none` is an empty solution. -/
def preprocess (n : ℕ) (matrix : ℕ → ℕ → ValueType) : Option Solution → (ℕ → ℕ) × Solution
  | none =>
    let dualU i := minOver n fun j => matrix i j
    let dualV j := minOver n fun i => matrix i j - dualU i
    let row := assignRows n matrix dualU dualV
    (row, { dualU, dualV, primal := inverse n row })
  | some sol => (inverse n sol.primal, sol)

/-- The local variables of `augment`, with the duals it changes. -/
structure Scan where
  dualU : ℕ → ValueType
  dualV : ℕ → ValueType
  pi : ℕ → WithTop ValueType
  scannedU : ℕ → Bool
  scannedV : ℕ → Bool
  labeledV : ℕ → Bool
  pred : ℕ → ℕ
  i : ℕ

namespace Scan

variable (n : ℕ) (matrix : ℕ → ℕ → ValueType) (s : Scan)

def start (k : ℕ) (sol : Solution) : Scan where
  dualU := sol.dualU
  dualV := sol.dualV
  pi _ := ⊤
  scannedU _ := false
  scannedV _ := false
  labeledV _ := false
  pred _ := n
  i := k

/-- The slack of an entry, `val` in the source. -/
def val (r j : ℕ) : ValueType := matrix r j - s.dualU r - s.dualV j

/-- The first half of the loop body: row `i` is scanned. `is_zero` is that of an exact type, without the
tolerance of `is_zero<double>`. -/
def scanRow : Scan :=
  let hit j := s.labeledV j = false ∧ s.val matrix s.i j < s.pi j
  { s with
    scannedU := Function.update s.scannedU s.i true
    pred := fun j => if hit j then s.i else s.pred j
    pi := fun j => if hit j then s.val matrix s.i j else s.pi j
    labeledV := fun j => if hit j ∧ s.val matrix s.i j = 0 then true else s.labeledV j }

/-- The least `pi` of the columns without a label, `delta` in `dual_update`. -/
def delta : WithTop ValueType := least n s.labeledV s.pi

/-- `ApSolver::dual_update`, with the value of `delta` and the `is_zero` of an exact type. -/
def shift (d : ValueType) : Scan :=
  let pi k := if s.labeledV k then s.pi k else (s.pi k).map (· - d)
  { s with
    dualU := fun k => if s.scannedU k then s.dualU k + d else s.dualU k
    dualV := fun k => if s.labeledV k then s.dualV k - d else s.dualV k
    pi := pi
    labeledV := fun k => if s.labeledV k = false ∧ pi k = (0 : ValueType) then true else s.labeledV k }

/-- `ApSolver::dual_update`; it fails where it would add `big_value_` to a dual. -/
def dualUpdate : Option Scan :=
  match s.delta n with
  | ⊤ => none
  | (d : ValueType) => some (s.shift d)

/-- The second half of the loop body: the first labelled column not yet scanned. -/
def nextColumn : Option ℕ := (List.range n).find? fun j => s.labeledV j && !s.scannedV j

end Scan

/-- The body of the loop of `augment`; the loop ends with the sink. A row `i` that no vector has an
entry for fails. -/
def augmentBody (n : ℕ) (matrix : ℕ → ℕ → ValueType) (row : ℕ → ℕ) (s : Scan) :
    Option (Scan ⊕ ℕ × Scan) :=
  if s.i < n then
    let s := s.scanRow matrix
    match s.nextColumn n with
    | some j =>
      let s := { s with scannedV := Function.update s.scannedV j true }
      if row j = n then some (.inr (j, s)) else some (.inl { s with i := row j })
    | none => (s.dualUpdate n).map .inl
  else none

/-- `ApSolver::augment`. -/
def augment (fuel n : ℕ) (matrix : ℕ → ℕ → ValueType) (row : ℕ → ℕ) (k : ℕ) (sol : Solution) :
    Option (ℕ × Scan) :=
  Loop.iterate (augmentBody n matrix row) fuel (.start n k sol)

/-- The variables of the inner loop of `solve`. -/
structure Flip where
  j : ℕ
  row : ℕ → ℕ
  phi : ℕ → ℕ

/-- The body of the inner loop of `solve`: row `pred_[j]` takes column `j`. A row or a column that no
vector has an entry for fails. -/
def flipBody (n : ℕ) (pred : ℕ → ℕ) (k : ℕ) (s : Flip) : Option (Flip ⊕ (ℕ → ℕ) × (ℕ → ℕ)) :=
  if s.j < n ∧ pred s.j < n then
    let i := pred s.j
    let row := Function.update s.row s.j i
    let phi := Function.update s.phi i s.j
    if i = k then some (.inr (row, phi)) else some (.inl { j := s.phi i, row, phi })
  else none

/-- `ApSolver::next_unassigned`. -/
def nextUnassigned (n : ℕ) (phi : ℕ → ℕ) : Option ℕ := (List.range n).find? fun k => n ≤ phi k

/-- The body of the outer loop of `solve`, on `row_` and the solution. -/
def solveBody (fuel n : ℕ) (matrix : ℕ → ℕ → ValueType) (s : (ℕ → ℕ) × Solution) :
    Option ((ℕ → ℕ) × Solution ⊕ Solution) :=
  match nextUnassigned n s.2.primal with
  | none => some (.inr s.2)
  | some k => do
    let (j, t) ← augment fuel n matrix s.1 k s.2
    let (row, phi) ← Loop.iterate (flipBody n t.pred k) fuel { j, row := s.1, phi := s.2.primal }
    return .inl (row, { dualU := t.dualU, dualV := t.dualV, primal := phi })

/-- `ApSolver::solve`. -/
def solve (fuel n : ℕ) (matrix : ℕ → ℕ → ValueType) (start : Option Solution) : Option Solution :=
  Loop.iterate (solveBody fuel n matrix) fuel (preprocess n matrix start)

end Optimer.ApSolver

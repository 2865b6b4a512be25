import Mathlib.Algebra.Order.Group.Defs
import Mathlib.Data.Finset.Card
import Optimer.Lib.Binary64
import Optimer.Tsp.Types

/-! The minimum spanning 1-tree (`tsp/symmetric/ms_one_tree-inl.h`): Prim's algorithm on the vertices
from `1` on and the two cheapest edges at vertex `0`. -/

namespace Optimer.MSOneTree
open Optimer.Tsp

/-- `max_val<T>()`, half of the largest number of the type. -/
class MaxVal (T : Type*) where
  maxVal : T

export MaxVal (maxVal)

instance : MaxVal ValueType := ⟨Binary64.largest / 2⟩

/-- `MSOneTree::Solution`. -/
structure Solution (T : Type*) where
  value : T
  edges : List Edge

variable {T : Type*} [LinearOrder T]

/-- `std::min_element` of a row: the first of its smallest entries. -/
def minElement (row : ℕ → T) (size : ℕ) : ℕ :=
  (List.range' 1 (size - 1)).foldl (fun best j => if row j < row best then j else best) 0

namespace Prim

/-- The local variables of `solve`; `minIndices` is `size` at a vertex that is not in the tree. -/
structure State (T : Type*) where
  minIndices : ℕ → ℕ
  minValues : ℕ → T
  edges : List Edge
  totalCost : T

def vertexIsIncluded (size vertex : ℕ) (minIndices : ℕ → ℕ) : Bool := minIndices vertex < size

/-- The body of the inner loop of `update_mins`, on `min_indices` and `min_values`. -/
def updateMin (matrix : ℕ → ℕ → T) (size i : ℕ) (mins : (ℕ → ℕ) × (ℕ → T)) (j : ℕ) :
    (ℕ → ℕ) × (ℕ → T) :=
  if vertexIsIncluded size j mins.1 then mins
  else if matrix i j < mins.2 i then
    (Function.update mins.1 i j, Function.update mins.2 i (matrix i j))
  else mins

variable [MaxVal T]

def updateRow (matrix : ℕ → ℕ → T) (size index : ℕ) (mins : (ℕ → ℕ) × (ℕ → T)) (i : ℕ) :
    (ℕ → ℕ) × (ℕ → T) :=
  if mins.1 i = index then
    (List.range' 1 (size - 1)).foldl (updateMin matrix size i)
      (mins.1, Function.update mins.2 i maxVal)
  else mins

def updateMins (matrix : ℕ → ℕ → T) (size index : ℕ) (mins : (ℕ → ℕ) × (ℕ → T)) :
    (ℕ → ℕ) × (ℕ → T) :=
  (List.range' 1 (size - 1)).foldl (updateRow matrix size index) mins

def startPoint : ℕ := 1

/-- The body of the loop that selects the cheapest edge, on `min_u` and `min_value`. -/
def selectMin (size : ℕ) (s : State T) (best : ℕ × T) (i : ℕ) : ℕ × T :=
  if ¬ vertexIsIncluded size i s.minIndices then best
  else if s.minValues i < best.2 then (i, s.minValues i) else best

variable [AddCommGroup T]

/-- One round of the `while` loop, which adds an edge. -/
def step (matrix : ℕ → ℕ → T) (size : ℕ) (s : State T) : State T :=
  let (minU, minValue) := (List.range' (startPoint + 1) (size - (startPoint + 1))).foldl
    (selectMin size s) (startPoint, s.minValues startPoint)
  let minV := s.minIndices minU
  let mins := updateMins matrix size minV (Function.update s.minIndices minV minV, s.minValues)
  { minIndices := mins.1, minValues := mins.2
    edges := s.edges ++ [(minU, minV)], totalCost := s.totalCost + minValue }

def start (matrix : ℕ → ℕ → T) (size : ℕ) : State T :=
  let minVertex := minElement (matrix startPoint) size
  { minIndices := Function.update (fun _ => size) startPoint minVertex
    minValues := Function.update (fun _ => maxVal) startPoint (matrix startPoint minVertex)
    edges := [], totalCost := 0 }

/-- `Prim::solve`; the `while` loop ends when there are `size - 2` edges. -/
def solve (matrix : ℕ → ℕ → T) (size : ℕ) : Solution T :=
  let s := (step matrix size)^[size - 2] (start matrix size)
  { value := s.totalCost, edges := s.edges }

end Prim

/-- The two smallest entries met so far, each with its index. -/
structure TwoMins (T : Type*) where
  value0 : T
  index0 : ℕ
  value1 : T
  index1 : ℕ

/-- The body of the loop over row `0`. -/
def twoMinsStep (matrix : ℕ → ℕ → T) (mins : TwoMins T) (j : ℕ) : TwoMins T :=
  if matrix 0 j < mins.value0 then
    { value1 := mins.value0, index1 := mins.index0, value0 := matrix 0 j, index0 := j }
  else if matrix 0 j < mins.value1 then
    { mins with value1 := matrix 0 j, index1 := j }
  else mins

variable [MaxVal T]

def twoMins (matrix : ℕ → ℕ → T) (size : ℕ) : TwoMins T :=
  (List.range size).foldl (twoMinsStep matrix)
    { value0 := maxVal, index0 := size, value1 := maxVal, index1 := size }

/-- `MSOneTree::solve`. -/
def solve [AddCommGroup T] (matrix : ℕ → ℕ → T) (size : ℕ) : Solution T :=
  let solution := Prim.solve matrix size
  let mins := twoMins matrix size
  { value := solution.value + (mins.value0 + mins.value1)
    edges := solution.edges ++ [(0, mins.index0), (0, mins.index1)] }

end Optimer.MSOneTree

import Optimer.Bnb.Solver
import Optimer.Common.AlgoString

/-! The reader of problem files (`tsp/common/data_loader.cpp`): a state machine over the lines of the
text. What `load_tsplib_problem` only logs is left out. -/

namespace Optimer.Tsp
open CText

/-- How reading ends early: the exceptions thrown, or behaviour the language leaves undefined (an
index out of range, the call of an unassigned action, a number that is no `int`). -/
inductive Failure
  | domainError (what : List Char)
  | logicError (what : List Char)
  | lengthError
  | badAlloc
  | undefined
  deriving DecidableEq, Repr

/-- `std::vector<value_type>::max_size()`. -/
def maxSize : ℕ := (2 ^ 63 - 1) / 8

/-- Arithmetic of `size_t`. -/
def sizeT (n : ℕ) : ℕ := n % 2 ^ 64

/-- The machine serves an allocation of at most `available` values, and throws `std::bad_alloc` on a
larger one. -/
def reserve (available n : ℕ) : Except Failure Unit :=
  if maxSize < n then .error .lengthError
  else if available < n then .error .badAlloc
  else .ok ()

def resize (available : ℕ) (m : List ValueType) (n : ℕ) : Except Failure (List ValueType) := do
  reserve available n
  return m.take n ++ List.replicate (n - m.length) 0

/-- `v[i]`. -/
def fetch {α : Type*} (v : List α) (i : ℕ) : Except Failure α :=
  match v[i]? with
  | some x => .ok x
  | none => .error .undefined

/-- `m[i] = v`. -/
def store (m : List ValueType) (i : ℕ) (v : ValueType) : Except Failure (List ValueType) :=
  if i < m.length then .ok (m.set i v) else .error .undefined

/-- `Geometry2D::Point`; a coordinate that was never written is `none`. -/
structure Point where
  x : Option ValueType := none
  y : Option ValueType := none

def markerDimension : List Char := "DIMENSION: ".toList
def markerFormat : List Char := "EDGE_WEIGHT_FORMAT: ".toList
def markerDispDataType : List Char := "DISPLAY_DATA_TYPE: ".toList
def markerData : List Char := "EDGE_WEIGHT_SECTION".toList
def markerDataCoords : List Char := "NODE_COORD_SECTION".toList
def markerEof : List Char := "EOF".toList

def startsWith (str pattern : List Char) : Bool := pattern.isPrefixOf str

/-- What `action_ptr` points to. -/
inductive Action
  | readCommonLine
  | readLowerDiagDataLine
  | readFullMatrixDataLine
  | readCoordsDataLine
  deriving DecidableEq, Repr

/-- An action that was never assigned is `none`. -/
structure TspLibLoader where
  nextAction : Option Action := none
  dataAction : Option Action := none
  dimension : ℕ := 0
  matrix : List ValueType := []
  coords : List Point := []

namespace TspLibLoader

def readDimension (available : ℕ) (s : TspLibLoader) (line : List Char) : Except Failure TspLibLoader := do
  match atoi (line.drop markerDimension.length) with
  | none => .error .undefined
  | some n =>
    let dimension := (n % 2 ^ 64).toNat
    reserve available (sizeT (dimension * dimension))
    return { s with dimension := dimension }

def readFormat (s : TspLibLoader) (line : List Char) : Except Failure TspLibLoader :=
  let format := trim (cStr (line.drop markerFormat.length))
  if format = "LOWER_DIAG_ROW".toList then
    .ok { s with dataAction := some .readLowerDiagDataLine }
  else if format = "FULL_MATRIX".toList then
    .ok { s with dataAction := some .readFullMatrixDataLine }
  else .error (.domainError ("Unknown format: ".toList ++ format))

def readDisplayDataType (s : TspLibLoader) (line : List Char) : Except Failure TspLibLoader :=
  let dataType := trim (cStr (line.drop markerDispDataType.length))
  if dataType = "COORD_DISPLAY".toList then
    .ok { s with dataAction := some .readCoordsDataLine }
  else .error (.domainError ("Unknown display data type: ".toList ++ dataType))

def readEdges (s : TspLibLoader) (line : List Char) : TspLibLoader :=
  { s with matrix := s.matrix ++ readDoubles line }

def readCommonLine (available : ℕ) (s : TspLibLoader) (line : List Char) : Except Failure TspLibLoader :=
  if startsWith line markerDimension then s.readDimension available line
  else if startsWith line markerFormat then s.readFormat line
  else if startsWith line markerDispDataType then s.readDisplayDataType line
  else if startsWith line markerData then .ok { s with nextAction := s.dataAction }
  else if startsWith line markerDataCoords then .ok { s with nextAction := s.dataAction }
  else .ok s

/-- The body of the inner loop that mirrors the lower triangle, on the matrix and `pos`. -/
def mirrorCell (dimension : ℕ) (data : List ValueType) (i : ℕ) (m : List ValueType × ℕ) (j : ℕ) :
    Except Failure (List ValueType × ℕ) := do
  if i ≠ j then
    let val ← fetch data m.2
    let matrix ← store m.1 (sizeT (i * dimension + j)) val
    let matrix ← store matrix (sizeT (j * dimension + i)) val
    return (matrix, m.2 + 1)
  else
    let matrix ← store m.1 (sizeT (i * dimension + j)) mVal
    return (matrix, m.2 + 1)

def mirrorRow (dimension : ℕ) (data : List ValueType) (m : List ValueType × ℕ) (i : ℕ) :
    Except Failure (List ValueType × ℕ) :=
  (List.range (i + 1)).foldlM (mirrorCell dimension data i) m

def readLowerDiagDataLine (available : ℕ) (s : TspLibLoader) (line : List Char) :
    Except Failure TspLibLoader := do
  if ¬ startsWith line markerEof then
    return s.readEdges line
  else
    let data := s.matrix
    let matrix ← resize available [] (sizeT (s.dimension * s.dimension))
    let m ← (List.range s.dimension).foldlM (mirrorRow s.dimension data) (matrix, 0)
    return { s with matrix := m.1 }

def fixDiagonal (dimension : ℕ) (m : List ValueType) (i : ℕ) : Except Failure (List ValueType) :=
  store m (sizeT (i * dimension + i)) mVal

def readFullMatrixDataLine (s : TspLibLoader) (line : List Char) : Except Failure TspLibLoader := do
  if ¬ startsWith line markerEof then
    return s.readEdges line
  else
    let matrix ← (List.range s.dimension).foldlM (fixDiagonal s.dimension) s.matrix
    return { s with matrix := matrix }

/-- `iss >> coord_index >> point.x >> point.y`. -/
def readPoint (line : List Char) : Point :=
  match readUnsigned line with
  | none => {}
  | some ⟨_, line⟩ =>
    match readDouble line with
    | .inr x => { x := x }
    | .inl ⟨x, line⟩ =>
      match readDouble line with
      | .inr y => { x := some x, y := y }
      | .inl ⟨y, _⟩ => { x := some x, y := some y }

section Coords

variable (distance : Point → Point → ValueType)

def distanceCell (dimension : ℕ) (coords : List Point) (i : ℕ) (m : List ValueType) (j : ℕ) :
    Except Failure (List ValueType) := do
  if i ≠ j then
    let a ← fetch coords i
    let b ← fetch coords j
    let m ← store m (sizeT (i * dimension + j)) (distance a b)
    store m (sizeT (j * dimension + i)) (distance a b)
  else store m (sizeT (i * dimension + i)) mVal

def distanceRow (dimension : ℕ) (coords : List Point) (m : List ValueType) (i : ℕ) :
    Except Failure (List ValueType) :=
  (List.range' i (dimension - i)).foldlM (distanceCell distance dimension coords i) m

/-- The last `resize` stays within what `readDimension` has reserved. -/
def readCoordsDataLine (available : ℕ) (s : TspLibLoader) (line : List Char) :
    Except Failure TspLibLoader := do
  if ¬ startsWith line markerEof then
    return { s with coords := s.coords ++ [readPoint line] }
  else if s.coords.length ≠ s.dimension then
    .error (.logicError "Read invalid number of coords".toList)
  else
    let matrix ← resize available s.matrix (sizeT (s.dimension * s.dimension))
    let matrix ← (List.range s.dimension).foldlM (distanceRow distance s.dimension s.coords) matrix
    return { s with matrix := matrix }

/-- `(this->*next_action_)(line)`. -/
def act (available : ℕ) (s : TspLibLoader) (line : List Char) : Except Failure TspLibLoader :=
  match s.nextAction with
  | none => .error .undefined
  | some .readCommonLine => s.readCommonLine available line
  | some .readLowerDiagDataLine => s.readLowerDiagDataLine available line
  | some .readFullMatrixDataLine => s.readFullMatrixDataLine line
  | some .readCoordsDataLine => s.readCoordsDataLine distance available line

def load (available : ℕ) (text : List Char) : Except Failure (List ValueType × ℕ) := do
  let s ← (lines text).foldlM (act distance available) { nextAction := some .readCommonLine }
  return (s.matrix, s.dimension)

end Coords

end TspLibLoader

/-- The body of the inner loop that copies the leading block. -/
def shrinkCell (maxDimension dimension : ℕ) (matrix : List ValueType) (i : ℕ)
    (m : List ValueType) (j : ℕ) : Except Failure (List ValueType) := do
  let val ← fetch matrix (sizeT (i + j * dimension))
  store m (sizeT (i + j * maxDimension)) val

def shrinkRow (maxDimension dimension : ℕ) (matrix m : List ValueType) (i : ℕ) :
    Except Failure (List ValueType) :=
  (List.range maxDimension).foldlM (shrinkCell maxDimension dimension matrix i) m

/-- `load_tsplib_problem` on a machine that serves allocations of at most `available` values. The
coordinates are those of `double`s, whose `distance` takes a square root; it is a parameter. -/
def loadTsplibProblemWithin (available : ℕ) (distance : Point → Point → ValueType) (text : List Char)
    (maxDimension : ℕ) : Except Failure (List ValueType × ℕ) := do
  let (matrix, dimension) ← TspLibLoader.load distance available text
  if maxDimension ≠ 0 ∧ maxDimension < dimension then
    let m ← resize available [] (sizeT (maxDimension * maxDimension))
    let m ← (List.range maxDimension).foldlM (shrinkRow maxDimension dimension matrix) m
    return (m, maxDimension)
  else return (matrix, dimension)

/-- `load_tsplib_problem` with memory for any vector. -/
def loadTsplibProblem (distance : Point → Point → ValueType) (text : List Char)
    (maxDimension : ℕ) : Except Failure (List ValueType × ℕ) :=
  loadTsplibProblemWithin maxSize distance text maxDimension

end Optimer.Tsp

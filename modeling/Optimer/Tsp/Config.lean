import Optimer.Bnb.Scheduler
import Optimer.Bnb.Serial
import Optimer.Common.IniFile
import Optimer.Tsp.Asymmetric
import Optimer.Tsp.DataLoader

/-! What the programs do with a config file (`tsp/common/config.h`), up to the search. `files` are the texts of the
files; one that cannot be opened reads as an empty text. -/

namespace Optimer.Tsp.Config
open CText Ini

/-- How a program ends before its search. -/
inductive Stop
  /-- A message on `std::cerr`; the program returns `1`. -/
  | invalid (message : List Char)
  /-- What `std::stoul` throws. -/
  | invalidArgument
  | outOfRange
  | loader (failure : Failure)
  /-- Undefined behaviour, or a number that is no rational one. -/
  | undefined

/-- What the solver is called with. `SerialBNB` has no scheduler. -/
structure Job where
  container : Container
  scheduler : Option Scheduler
  matrix : List ValueType
  rank : ℕ
  parameters : IniSection
  record : ValueType

def general : List Char := "general".toList

def problemPath (ini : IniFile) : List Char := (ini.get general).get "problem_path".toList

/-- `problem_size`; an empty value is `0`, which is all of the problem. -/
def problemSize (ini : IniFile) : Option ℕ :=
  stringToSizeT ((ini.get general).get "problem_size".toList) (2 ^ 64 - 1)

/-- The literal `0.001`. -/
def thousandth : ValueType := 1152921504606847 / 2 ^ 60

def initialRecord (ini : IniFile) : Option ValueType :=
  (stringToDouble ((ini.get general).get "record".toList) mVal).map fun record =>
    if record < thousandth then mVal else record

/-! ### `std::stoul` -/

def digitValue (c : Char) : ℕ :=
  if '0' ≤ c ∧ c ≤ '9' then c.toNat - '0'.toNat
  else if 'a' ≤ c ∧ c ≤ 'z' then c.toNat - 'a'.toNat + 10
  else if 'A' ≤ c ∧ c ≤ 'Z' then c.toNat - 'A'.toNat + 10
  else 36

/-- What the base `0` stands for, and the text after the prefix. -/
def detectBase : List Char → ℕ × List Char
  | '0' :: x :: c :: s =>
    if (x = 'x' ∨ x = 'X') ∧ digitValue c < 16 then (16, c :: s) else (8, '0' :: x :: c :: s)
  | '0' :: s => (8, '0' :: s)
  | s => (10, s)

/-- `std::stoul(str, nullptr, 0)`; a minus is taken modulo `2 ^ 64`. -/
def stoul (str : List Char) : Except Stop ℕ :=
  let (neg, s) := readSign ((cStr str).dropWhile isSpace)
  let (base, s) := detectBase s
  let ds := s.takeWhile fun c => digitValue c < base
  let n := ds.foldl (fun n c => n * base + digitValue c) 0
  if ds = [] then .error .invalidArgument
  else if 2 ^ 64 ≤ n then .error .outOfRange
  else .ok (if neg then (2 ^ 64 - n) % 2 ^ 64 else n)

/-! ### The settings -/

def getGivingSchedulerParams (scheduler : IniSection) : Except Stop GivingSchedulerParams := do
  let numThreads ← stoul (scheduler.get "num_threads".toList)
  let numMinimumNodes ← stoul (scheduler.get "num_minimum_nodes".toList)
  let numMaximumNodes ← stoul (scheduler.get "num_maximum_nodes".toList)
  return ⟨.ofNat numThreads, .ofNat numMinimumNodes, .ofNat numMaximumNodes⟩

/-- A count of zero is reported, and used. -/
def getRequestingSchedulerParams (scheduler : IniSection) : Except Stop RequestingSchedulerParams := do
  let numThreads ← stoul (scheduler.get "num_threads".toList)
  let numMinimumNodes ← stoul (scheduler.get "num_minimum_nodes".toList)
  return ⟨.ofNat numThreads, .ofNat numMinimumNodes⟩

section

variable (distance : Point → Point → ValueType) (files : List Char → List Char) (ini : IniFile)

/-- `solve(ini, solver)` up to the call of `solver.solve`. -/
def solve (container : Container) (scheduler : Option Scheduler) : Except Stop Job :=
  match problemSize ini with
  | none => .error .undefined
  | some maxRank =>
    match loadTsplibProblem distance (files (problemPath ini)) maxRank with
    | .error failure => .error (.loader failure)
    | .ok problem =>
      match initialRecord ini with
      | none => .error .undefined
      | some record =>
        .ok { container, scheduler, matrix := problem.1, rank := problem.2, parameters := ini.get "tsp".toList, record }

def processSerial (container : Container) : Except Stop Job := solve distance files ini container none

def processParallelLock (container : Container) : Except Stop Job :=
  let scheduler := ini.get "scheduler".toList
  let schedulerType := scheduler.get "type".toList
  if schedulerType = "giving".toList then do
    let params ← getGivingSchedulerParams scheduler
    solve distance files ini container (some (.giving params))
  else if schedulerType = "requesting".toList then do
    let params ← getRequestingSchedulerParams scheduler
    solve distance files ini container (some (.requesting params))
  else .error (.invalid "Invalid scheduler".toList)

def processValuationType (container : Container) : Except Stop Job :=
  let valuation := (ini.get general).get "valuation_type".toList
  if valuation = "serial".toList then processSerial distance files ini container
  else if valuation = "parallel-lock".toList then processParallelLock distance files ini container
  else .error (.invalid "Invalid valuation type".toList)

def processContainerType : Except Stop Job :=
  let container := (ini.get general).get "container_type".toList
  if container = "lifo".toList then processValuationType distance files ini .lifo
  else if container = "priority".toList then processValuationType distance files ini .priority
  else .error (.invalid ("Invalid container type: ".toList ++ container))

end

/-- `tsp::solve` on the text of a config file. -/
def solveText (distance : Point → Point → ValueType) (files : List Char → List Char) (text : List Char) :
    Except Stop Job :=
  processContainerType distance files (.ofText text)

/-- What `TspSolver::init` reads of the parameters; undefined where the number is no `long`. -/
def branchingRule (parameters : IniSection) : Option (Option ℕ) :=
  match parameters "branching_rule".toList with
  | none => some none
  | some text => (stringToSizeT text 1).map some

/-- The data of a job that has a matrix of its rank. -/
def Job.data (job : Job) : Option InitialData :=
  if h : job.matrix.length = job.rank * job.rank ∧ job.rank * job.rank < 2 ^ 64 then
    (branchingRule job.parameters).map fun branchingRule =>
      { matrix := fun i j => job.matrix.getD (i * job.rank + j) 0
        rank := job.rank
        size_lt := h.2
        branchingRule }
  else none

end Optimer.Tsp.Config
